import DynamicUi.Proofs.Text.Trim
import DynamicUi.Spec.Document
import Mathlib.Data.List.Perm.Basic

/-! # Ids of decoded nodes

A node has the id that its entry gives itself, or else a fresh one: its kind with a number. Fresh
ids differ from one another whatever the kinds are, because the numbers do. They are not kept apart
from the ids that entries give themselves, so the ids of a tree are distinct exactly if these are
and no fresh id is among them.
-/

namespace DynamicUi

open Json

def numbered {α : Type} (kind : α → String) (l : List α) (n : Nat) : List String :=
  (l.zipIdx n).map fun e => freshId (kind e.1) e.2

theorem nodup_numbered {α : Type} (kind : α → String) (l : List α) (n : Nat) :
    (numbered kind l n).Nodup := by
  have hnumbers : ((l.zipIdx n).map Prod.snd).Nodup := by
    rw [List.zipIdx_map_snd]
    exact List.nodup_range'
  refine (List.pairwise_map.mp hnumbers).map _ ?_
  intro e e' hne hid
  exact hne (freshId_number hid)

/-- How a node comes by its id. -/
inductive Naming where
  | given (id : String)
  | fresh (kind : String)

namespace Naming

def given? : Naming → Option String
  | given id => some id
  | fresh _ => none

def kind? : Naming → Option String
  | given _ => none
  | fresh kind => some kind

def givenIds (names : List Naming) : List String := names.filterMap given?

def freshIds (n : Nat) (names : List Naming) : List String :=
  ((names.filterMap kind?).zipIdx n).map fun e => freshId e.1 e.2

def freshCount (names : List Naming) : Nat := (names.filterMap kind?).length

def ids (n : Nat) : List Naming → List String
  | [] => []
  | given id :: names => id :: ids n names
  | fresh kind :: names => freshId kind n :: ids (n + 1) names

theorem ids_append (n : Nat) (names more : List Naming) :
    ids n (names ++ more) = ids n names ++ ids (n + freshCount names) more := by
  induction names generalizing n with
  | nil => rfl
  | cons name names ih =>
    cases name with
    | given id => exact congrArg (id :: ·) (ih n)
    | fresh kind =>
      have hcount : n + freshCount (fresh kind :: names) = n + 1 + freshCount names :=
        (Nat.add_comm (freshCount names) 1 ▸ Nat.add_assoc n 1 (freshCount names)).symm
      rw [hcount]
      exact congrArg (freshId kind n :: ·) (ih (n + 1))

theorem freshCount_append (names more : List Naming) :
    freshCount (names ++ more) = freshCount names + freshCount more := by
  rw [freshCount, List.filterMap_append, List.length_append]
  rfl

theorem ids_perm (n : Nat) (names : List Naming) :
    (ids n names).Perm (givenIds names ++ freshIds n names) := by
  induction names generalizing n with
  | nil => exact .nil
  | cons name names ih =>
    cases name with
    | given id => exact (ih n).cons id
    | fresh kind => exact ((ih (n + 1)).cons _).trans List.perm_middle.symm

theorem exists_of_mem_freshIds {names : List Naming} {id : String} (h : id ∈ freshIds 0 names) :
    ∃ kind n, n < (freshIds 0 names).length ∧ id = freshId kind n := by
  obtain ⟨⟨kind, n⟩, hmem, rfl⟩ := List.mem_map.mp h
  have hn : n < (names.filterMap kind?).length := by
    simpa using (List.mem_zipIdx hmem).2.1
  exact ⟨kind, n, by simpa [freshIds] using hn, rfl⟩

theorem nodup_freshIds (n : Nat) (names : List Naming) : (freshIds n names).Nodup :=
  nodup_numbered (fun kind => kind) (names.filterMap kind?) n

end Naming

/-! ## What a source says of its ids -/

namespace Component

def numberedKind (fields : Fields) : String :=
  match KeyMap.get? fields "type" with
  | none | some .null => "container"
  | some (.string s) => if Text.trim s = "" then "node" else Text.trim s
  | some _ => "invalid"

def naming (fields : Fields) : Naming :=
  match givenId? fields with
  | some id => .given id
  | none => .fresh (numberedKind fields)

/-- The entry has no defect, so that its children are decoded. -/
def isSound (fields : Fields) : Bool :=
  (match KeyMap.get? fields "type" with
    | none | some .null | some (.string _) => true
    | some _ => false) &&
  match KeyMap.get? fields "props" with
    | none | some .null | some (.object _) => true
    | some _ => false

end Component

namespace Node

mutual

def namings : Value → List Naming
  | .string _ => [.fresh "text"]
  | .object fields =>
    Component.naming fields :: if Component.isSound fields then namingsBelow fields else []
  | _ => [.fresh "invalid"]

def namingsBelow : List (String × Value) → List Naming
  | [] => []
  | (name, v) :: fields => if name = "children" then namingsIn v else namingsBelow fields

def namingsIn : Value → List Naming
  | .null => []
  | .array vs => namingsAll vs
  | _ => [.fresh "invalid"]

def namingsAll : List Value → List Naming
  | [] => []
  | v :: vs => namings v ++ namingsAll vs

end

end Node

/-! ## The ids of the decoded nodes -/

/-- The decoder has named nodes in turn, starting from the counter `n`. -/
structure Named (names : List Naming) (n : Nat) (ids : List String) (next : Nat) : Prop where
  ids : ids = Naming.ids n names
  next : next = n + Naming.freshCount names

namespace Named

variable {names more : List Naming} {n m k : Nat} {is js : List String}

theorem nil : Named [] n [] n := ⟨rfl, rfl⟩

theorem fresh (kind : String) : Named [.fresh kind] n [freshId kind n] (n + 1) := ⟨rfl, rfl⟩

theorem append (h : Named names n is m) (h' : Named more m js k) :
    Named (names ++ more) n (is ++ js) k := by
  obtain ⟨rfl, rfl⟩ := h
  obtain ⟨rfl, rfl⟩ := h'
  exact ⟨(Naming.ids_append n names more).symm,
    by rw [Naming.freshCount_append, Nat.add_assoc]⟩

end Named

namespace Component

theorem assignId_named (fields : Fields) (n : Nat) :
    Named [naming fields] n [(assignId fields (numberedKind fields) n).1]
      (assignId fields (numberedKind fields) n).2 := by
  unfold assignId naming
  cases givenId? fields with
  | none => exact .fresh _
  | some id => exact ⟨rfl, rfl⟩

theorem decode_named (fields : Fields) (n : Nat) :
    Named [naming fields] n [(decode fields n).1.id] (decode fields n).2 := by
  have hnamed := assignId_named fields n
  unfold numberedKind at hnamed
  unfold decode
  cases htype : KeyMap.get? fields "type" with
  | none =>
    simp only [htype, decodeBody_id] at hnamed ⊢
    exact hnamed
  | some v =>
    rw [htype] at hnamed
    cases v with
    | null | string s =>
      simp only [decodeBody_id]
      exact hnamed
    | bool | number | array | object => exact hnamed

theorem decodeBody_defect (fields : Fields) (id kind : String) :
    (decodeBody fields id kind).defect.isSome =
      !match KeyMap.get? fields "props" with
        | none | some .null | some (.object _) => true
        | some _ => false := by
  unfold decodeBody
  simp only
  cases KeyMap.get? fields "props" with
  | none => rw [withEvents_defect]; rfl
  | some v =>
    cases v with
    | null | object => rw [withEvents_defect]; rfl
    | bool | number | string | array => rfl

theorem decode_defect (fields : Fields) (n : Nat) :
    (decode fields n).1.defect.isSome = !isSound fields := by
  unfold decode isSound
  cases KeyMap.get? fields "type" with
  | none => exact decodeBody_defect ..
  | some v =>
    cases v with
    | null | string => exact decodeBody_defect ..
    | bool | number | array | object => rfl

end Component

namespace Node

def idsOf (depth : Nat) (ns : List Node) : List String :=
  (flattenAll depth ns).map fun e => e.2.1.id

theorem idsOf_mk (depth : Nat) (c : Component) (below : List Node) :
    idsOf depth [mk c below] = c.id :: idsOf (depth + 1) below := by
  simp only [idsOf, flattenAll, flatten, List.append_nil, List.map_cons]

theorem idsOf_cons (depth : Nat) (node : Node) (ns : List Node) :
    idsOf depth (node :: ns) = idsOf depth [node] ++ idsOf depth ns := by
  simp only [idsOf, flattenAll, List.append_nil, List.map_append]

mutual

theorem decode_named : ∀ (v : Value) (n depth : Nat),
    Named (namings v) n (idsOf depth [(decode v n).1]) (decode v n).2
  | .string text, n, depth => .fresh "text"
  | .object fields, n, depth => by
    have hself := Component.decode_named fields n
    have hdefect := Component.decode_defect fields n
    simp only [decode, namings]
    cases hsound : Component.isSound fields with
    | false =>
      rw [hsound] at hdefect
      simp only [hdefect, Bool.not_false, if_true, Bool.false_eq_true, if_false]
      exact hself
    | true =>
      rw [hsound] at hdefect
      simp only [hdefect, Bool.not_true, Bool.false_eq_true, if_false, if_true]
      rw [idsOf_mk]
      exact hself.append (decodeChildren_named fields _ (depth + 1))
  | .null, _, _ | .bool _, _, _ | .number _, _, _ | .array _, _, _ => .fresh "invalid"

theorem decodeChildren_named : ∀ (fields : List (String × Value)) (n depth : Nat),
    Named (namingsBelow fields) n (idsOf depth (decodeChildren fields n).1)
      (decodeChildren fields n).2
  | [], _, _ => .nil
  | (name, v) :: fields, n, depth => by
    simp only [decodeChildren, namingsBelow]
    split
    · exact decodeEntries_named v n depth
    · exact decodeChildren_named fields n depth

theorem decodeEntries_named : ∀ (v : Value) (n depth : Nat),
    Named (namingsIn v) n (idsOf depth (decodeEntries v n).1) (decodeEntries v n).2
  | .null, _, _ => .nil
  | .array vs, n, depth => decodeAll_named vs n depth
  | .bool _, _, _ | .number _, _, _ | .string _, _, _ | .object _, _, _ => .fresh "invalid"

theorem decodeAll_named : ∀ (vs : List Value) (n depth : Nat),
    Named (namingsAll vs) n (idsOf depth (decodeAll vs n).1) (decodeAll vs n).2
  | [], _, _ => .nil
  | v :: vs, n, depth => by
    have hfirst := decode_named v n depth
    have hrest := decodeAll_named vs (decode v n).2 depth
    simp only [decodeAll, namingsAll]
    rw [idsOf_cons]
    exact hfirst.append hrest

end

end Node

namespace Spec

def ids (s : Spec) : List String := Node.idsOf 0 s.roots

/-- How the nodes of a specification come by their ids; a source that is no object has none. -/
def namings : Value → List Naming
  | .object fields => Node.namingsIn ((KeyMap.get? fields "components").getD .null)
  | _ => []

theorem decode_ids {v : Value} {s : Spec} (h : decode v = .ok s) :
    s.ids = Naming.ids 0 (namings v) := by
  cases v with
  | object fields =>
    cases h
    exact (Node.decodeEntries_named _ 0 0).ids
  | null | bool | number | string | array => cases h

/-- The ids of a decoded tree are those that entries give themselves and the fresh ones. Fresh ids
differ from one another, each from each by its number, whatever the kinds, the nesting and the
defects. So all ids are distinct exactly if the given ones are, and none of them is among the fresh
ones; for that it is enough that no given id ends in a dash and a number. -/
theorem fresh_ids_keep_apart {v : Value} {s : Spec} (h : decode v = .ok s) :
    let given := Naming.givenIds (namings v)
    let fresh := Naming.freshIds 0 (namings v)
    s.ids.Perm (given ++ fresh) ∧ fresh.Nodup ∧
      (∀ id ∈ fresh, ∃ kind n, n < fresh.length ∧ id = freshId kind n) ∧
      (s.ids.Nodup ↔ given.Nodup ∧ ∀ id ∈ given, id ∉ fresh) ∧
      (given.Nodup → (∀ id ∈ given, ∀ kind n, id ≠ freshId kind n) → s.ids.Nodup) := by
  intro given fresh
  have hperm : s.ids.Perm (given ++ fresh) := decode_ids h ▸ Naming.ids_perm 0 (namings v)
  have hfresh : fresh.Nodup := Naming.nodup_freshIds 0 (namings v)
  have hform : ∀ id ∈ fresh, ∃ kind n, n < fresh.length ∧ id = freshId kind n :=
    fun id => Naming.exists_of_mem_freshIds
  have hiff : s.ids.Nodup ↔ given.Nodup ∧ ∀ id ∈ given, id ∉ fresh := by
    rw [hperm.nodup_iff, List.nodup_append]
    constructor
    · rintro ⟨hgiven, -, hne⟩
      exact ⟨hgiven, fun id hid hmem => hne id hid id hmem rfl⟩
    · rintro ⟨hgiven, hapart⟩
      exact ⟨hgiven, hfresh, fun id hid id' hid' he => hapart id hid (he ▸ hid')⟩
  refine ⟨hperm, hfresh, hform, hiff, fun hgiven hapart => hiff.mpr ⟨hgiven, ?_⟩⟩
  intro id hid hmem
  obtain ⟨kind, n, -, rfl⟩ := hform id hmem
  exact hapart _ hid kind n rfl

theorem fresh_ids_of_four_entries :
    let v := Value.record [("components", .array [.bool true, .record [("type", .string "a-1")],
      .record [("id", .nat 3), ("children", .array [.string "x"])],
      .record [("type", .string " a ")]])]
    ∃ s, decode v = .ok s ∧ s.ids.Nodup ∧
      s.ids = ["invalid-0", "a-1-1", "3", "text-2", "a-3"] := by
  intro v
  obtain ⟨-, -, -, hiff, -⟩ := fresh_ids_keep_apart (v := v) rfl
  exact ⟨_, rfl, hiff.mpr (by decide), by decide⟩

/-- The fresh id of a text is the one that the next entry gives itself. -/
theorem fresh_id_of_text_taken :
    let v := Value.record [("components", .array [.string "Hello",
      .record [("type", .string "text"), ("id", .string "text-0")]])]
    ∃ s, decode v = .ok s ∧ Naming.givenIds (namings v) = ["text-0"] ∧
      s.ids = ["text-0", "text-0"] ∧ ¬s.ids.Nodup :=
  ⟨_, rfl, by decide, by decide, by decide⟩

end Spec

end DynamicUi
