import DynamicUi.Proofs.Render.ReadTracking
import DynamicUi.Proofs.Spec.Naming
import DynamicUi.Proofs.Spec.RoundTrip
import Mathlib.Algebra.GroupWithZero.Nat
import Mathlib.Data.List.Basic

/-! # A replaced entry disturbs no other

Each node is decoded from its own entry and the counter of fresh ids. So where two sources differ in
one entry, whatever stands there instead, the nodes outside of it are the same but for the numbers
of the ids that are made after it: they are higher or lower by as many ids as are made for the one
entry more or less than for the other.
-/

namespace DynamicUi

open Json

/-! ## Entries and their places -/

namespace Entry

/-- What the nodes below an entry are decoded from; an entry with a defect has none. -/
def below : Value → Value
  | .object fields =>
    if Component.isSound fields then (KeyMap.get? fields "children").getD .null else .null
  | _ => .null

def row? (v : Value) : Option (List Value) := (below v).asArray?

def at? : Value → List Nat → Option Value
  | v, [] => some v
  | v, i :: path => ((row? v).getD [])[i]?.bind fun w => at? w path

def among? (vs : List Value) : List Nat → Option Value
  | [] => none
  | i :: path => vs[i]?.bind fun v => at? v path

def givesId : Value → Bool
  | .object fields => (Component.givenId? fields).isSome
  | _ => false

def made (v : Value) : Nat := Naming.freshCount (Node.namings v)

/-- Members of objects that differ in one list at most. -/
structure DifferIn (name : String) (fields fields' : Fields) (vs vs' : List Value) : Prop where
  before : KeyMap.get? fields name = some (.array vs)
  after : KeyMap.get? fields' name = some (.array vs')
  others : ∀ other, other ≠ name → KeyMap.get? fields' other = KeyMap.get? fields other

/-- Two lists of entries that have the one and the other entry at a path, all above it being sound,
and differ in nothing else. -/
inductive DifferAt (old new : Value) : List Nat → List Value → List Value → Prop
  | here (vs ws : List Value) : DifferAt old new [vs.length] (vs ++ old :: ws) (vs ++ new :: ws)
  | inside {path : List Nat} {fields fields' : Fields} {us us' : List Value} (vs ws : List Value)
    (sound : Component.isSound fields = true) (children : DifferIn "children" fields fields' us us')
    (deeper : DifferAt old new path us us') :
    DifferAt old new (vs.length :: path) (vs ++ .object fields :: ws) (vs ++ .object fields' :: ws)

end Entry

/-- What two nodes have in common that come from one entry: all that they say of themselves but the
id, and the number of their children. An id that is not fixed has numbers that are `a` and `b`
beyond the same one. -/
structure Node.Twins (a b : Nat) (fixed : Prop) (x x' : Node) : Prop where
  own : { x'.self with id := x.id } = x.self
  children : x'.children.length = x.children.length
  kept : fixed → x'.id = x.id
  numbered : ¬fixed → ∃ kind n, x.id = freshId kind (n + a) ∧ x'.id = freshId kind (n + b)

namespace Node.Twins

variable {a b : Nat} {fixed : Prop} {x x' : Node}

theorem refl (h : fixed) (x : Node) : Twins a b fixed x x :=
  ⟨rfl, rfl, fun _ => rfl, fun hn => absurd h hn⟩

theorem imp {fixed' : Prop} (h : Twins a b fixed x x') (hf : fixed' ↔ fixed) :
    Twins a b fixed' x x' :=
  ⟨h.own, h.children, fun hk => h.kept (hf.mp hk), fun hn => h.numbered (mt hf.mpr hn)⟩

theorem shift (k : Nat) (h : Twins (k + a) (k + b) fixed x x') : Twins a b fixed x x' := by
  refine ⟨h.own, h.children, h.kept, fun hn => ?_⟩
  obtain ⟨kind, n, hx, hx'⟩ := h.numbered hn
  exact ⟨kind, n + k, by rw [hx, Nat.add_assoc], by rw [hx', Nat.add_assoc]⟩

theorem rel_imp {r r' : Node → Node → Prop} {x? x'? : Option Node} (h : Option.Rel r x? x'?)
    (hr : ∀ x x', r x x' → r' x x') : Option.Rel r' x? x'? := by
  cases h with
  | some h => exact .some (hr _ _ h)
  | none => exact .none

theorem rel_refl (h : fixed) (x? : Option Node) : Option.Rel (Twins a b fixed) x? x? := by
  cases x? with
  | none => exact .none
  | some x => exact .some (refl h x)

end Node.Twins

/-! ## What an entry decodes to -/

namespace Component

theorem withEvents_withId (c : Component) (id : String) (v : Option Value) :
    { c with id }.withEvents v = { c.withEvents v with id } := by
  unfold withEvents
  split <;> rfl

theorem decodeBody_withId (fields : Fields) (id id' kind : String) :
    { decodeBody fields id kind with id := id' } = decodeBody fields id' kind := by
  simp only [decodeBody]
  split
  · exact (withEvents_withId (plain id kind) id' _).symm
  · exact (withEvents_withId (plain id kind) id' _).symm
  · exact (withEvents_withId { plain id kind with props := _ } id' _).symm
  · rfl

theorem decode_own (fields : Fields) (n m : Nat) :
    { (decode fields m).1 with id := (decode fields n).1.id } = (decode fields n).1 := by
  unfold decode
  split
  · simp only [decodeBody_id, decodeBody_withId]
  · simp only [decodeBody_id, decodeBody_withId]
  · simp only [decodeBody_id, decodeBody_withId]
  · rfl

theorem decode_id_given {fields : Fields} {id : String} (h : givenId? fields = some id) (n : Nat) :
    (decode fields n).1.id = id := by
  have hids := (decode_named fields n).ids
  rw [naming, h] at hids
  exact List.singleton_injective hids

theorem decode_id_fresh {fields : Fields} (h : givenId? fields = none) (n : Nat) :
    (decode fields n).1.id = freshId (numberedKind fields) n := by
  have hids := (decode_named fields n).ids
  rw [naming, h] at hids
  exact List.singleton_injective hids

variable {fields fields' : Fields} {vs vs' : List Value}

theorem decode_congr (h : Entry.DifferIn "children" fields fields' vs vs') (n : Nat) :
    decode fields' n = decode fields n := by
  have htype := h.others "type" (by decide)
  have hid := h.others "id" (by decide)
  have hprops := h.others "props" (by decide)
  have hevents := h.others "on_event" (by decide)
  have hevents' := h.others "onEvent" (by decide)
  simp only [decode, assignId, givenId?, decodeBody, Fields.firstOf?, htype, hid, hprops, hevents,
    hevents']

theorem isSound_congr (h : Entry.DifferIn "children" fields fields' vs vs') :
    isSound fields' = isSound fields := by
  simp only [isSound, h.others "type" (by decide), h.others "props" (by decide)]

end Component

namespace Node

theorem decode_next (v : Value) (n : Nat) : (decode v n).2 = n + Entry.made v :=
  (decode_named v n 0).next

theorem decodeAll_next (vs : List Value) (n : Nat) :
    (decodeAll vs n).2 = n + (vs.map Entry.made).sum := by
  induction vs generalizing n with
  | nil => rfl
  | cons v vs ih =>
    rw [decodeAll, List.map_cons, List.sum_cons, ← Nat.add_assoc, ← decode_next]
    exact ih _

/-- One node for each entry, with the ids numbered on from those made for the entries before it. -/
theorem decodeAll_getElem? (vs : List Value) (n i : Nat) : (decodeAll vs n).1[i]? =
    vs[i]?.map fun v => (decode v (n + ((vs.take i).map Entry.made).sum)).1 := by
  induction vs generalizing n i with
  | nil => rfl
  | cons v vs ih =>
    cases i with
    | zero => rfl
    | succ i =>
      have hrest := ih (decode v n).2 i
      rw [decode_next, Nat.add_assoc] at hrest
      simp only [List.getElem?_cons_succ, List.take_succ_cons, List.map_cons, List.sum_cons,
        ← hrest, ← decode_next]
      rfl

theorem length_decodeAll (vs : List Value) (n : Nat) : (decodeAll vs n).1.length = vs.length := by
  induction vs generalizing n with
  | nil => rfl
  | cons v vs ih => exact congrArg Nat.succ (ih _)

theorem decode_sound {fields : Fields} {vs : List Value} (hs : Component.isSound fields = true)
    (hc : KeyMap.get? fields "children" = some (.array vs)) (n : Nat) :
    decode (.object fields) n =
      (mk (Component.decode fields n).1 (decodeAll vs (Component.decode fields n).2).1,
        (decodeAll vs (Component.decode fields n).2).2) := by
  have hdefect := Component.decode_defect fields n
  rw [hs] at hdefect
  simp only [decode, hdefect, decodeChildren_eq, hc, Bool.not_true, Bool.false_eq_true, if_false]
  rfl

theorem exists_children_decode (v : Value) :
    ∃ k, ∀ n, (decode v n).1.children = (decodeEntries (Entry.below v) (n + k)).1 := by
  cases v with
  | object fields =>
    refine ⟨Naming.freshCount [Component.naming fields], fun n => ?_⟩
    have hdefect := Component.decode_defect fields n
    have hnext := (Component.decode_named fields n).next
    cases hs : Component.isSound fields with
    | false =>
      rw [hs] at hdefect
      simp only [decode, hdefect, Entry.below, hs, Bool.not_false, if_true, Bool.false_eq_true,
        if_false]
      rfl
    | true =>
      rw [hs] at hdefect
      simp only [decode, hdefect, Entry.below, hs, decodeChildren_eq, ← hnext, Bool.not_true,
        Bool.false_eq_true, if_false, if_true]
      rfl
  | null | bool | number | string | array => exact ⟨0, fun n => rfl⟩

end Node

/-! ## One entry, two counters -/

namespace Node

open Entry (made givesId)

def rowAt? (ns : List Node) : List Nat → Option Node
  | [] => none
  | i :: path => ns[i]?.bind fun n => n.at? path

theorem decode_self (fields : Fields) (n : Nat) :
    (decode (.object fields) n).1.self = (Component.decode fields n).1 := by
  simp only [decode]
  split <;> rfl

theorem length_children_decode (v : Value) (n m : Nat) :
    (decode v m).1.children.length = (decode v n).1.children.length := by
  obtain ⟨k, hk⟩ := exists_children_decode v
  rw [hk, hk]
  cases Entry.below v with
  | array vs => simp only [decodeEntries, length_decodeAll]
  | null | bool | number | string | object => rfl

theorem twins_decode (v : Value) (n m : Nat) :
    Twins n m (givesId v = true) (decode v n).1 (decode v m).1 := by
  have hlength := length_children_decode v n m
  cases v with
  | object fields =>
    have hn : (decode (.object fields) n).1.id = (Component.decode fields n).1.id :=
      congrArg Component.id (decode_self fields n)
    have hm : (decode (.object fields) m).1.id = (Component.decode fields m).1.id :=
      congrArg Component.id (decode_self fields m)
    refine ⟨?_, hlength, fun hgiven => ?_, fun hfresh => ?_⟩
    · rw [decode_self, decode_self, hn]
      exact Component.decode_own fields n m
    · obtain ⟨id, hid⟩ := Option.isSome_iff_exists.mp hgiven
      rw [hn, hm, Component.decode_id_given hid, Component.decode_id_given hid]
    · have hid : Component.givenId? fields = none := by simpa [givesId] using hfresh
      exact ⟨Component.numberedKind fields, 0,
        by rw [hn, Component.decode_id_fresh hid, Nat.zero_add],
        by rw [hm, Component.decode_id_fresh hid, Nat.zero_add]⟩
  | null | bool | number | string | array =>
    exact ⟨rfl, rfl, nofun, fun _ => ⟨_, 0, by rw [Nat.zero_add]; rfl, by rw [Nat.zero_add]; rfl⟩⟩

theorem twins_at? (path : List Nat) (v : Value) (n m : Nat) :
    Option.Rel (Twins n m ((Entry.at? v path).any givesId = true)) ((decode v n).1.at? path)
      ((decode v m).1.at? path) := by
  induction path generalizing v n m with
  | nil => exact .some (twins_decode v n m)
  | cons i path ih =>
    obtain ⟨k, hk⟩ := exists_children_decode v
    have hrow : Entry.row? v = (Entry.below v).asArray? := rfl
    simp only [at?, Entry.at?, hk, hrow]
    cases Entry.below v with
    | null => exact .none
    | array vs =>
      simp only [decodeEntries, decodeAll_getElem?, Value.asArray?, Option.getD_some]
      cases vs[i]? with
      | none => exact .none
      | some w =>
        let before := k + ((vs.take i).map made).sum
        have hbelow := ih w (before + n) (before + m)
        have hn : before + n = n + k + ((vs.take i).map made).sum := by omega
        have hm : before + m = m + k + ((vs.take i).map made).sum := by omega
        simp only [Option.map_some, Option.bind_some, ← hn, ← hm]
        exact Twins.rel_imp hbelow fun _ _ h => h.shift before
    | bool | number | string | object =>
      -- the one node that says so is not decoded from an entry
      rcases i with _ | i
      · cases path with
        | nil =>
          refine .some ⟨rfl, rfl, fun h => absurd h Bool.false_ne_true,
            fun _ => ⟨"invalid", k, ?_, ?_⟩⟩
          · rw [Nat.add_comm]; rfl
          · rw [Nat.add_comm]; rfl
        | cons j path => exact .none
      · exact .none

end Node

/-! ## Two entries, one counter -/

namespace Entry

variable {old new : Value} {path : List Nat} {vs vs' : List Value}

theorem made_of_sound {fields : Fields} {us : List Value} (hs : Component.isSound fields = true)
    (hc : KeyMap.get? fields "children" = some (.array us)) :
    made (.object fields) = (Component.decode fields 0).2 + (us.map made).sum := by
  have hnext := Node.decode_next (.object fields) 0
  rw [Node.decode_sound hs hc, Node.decodeAll_next, Nat.zero_add] at hnext
  exact hnext.symm

theorem sum_made (vs ws : List Value) (v : Value) : ((vs ++ v :: ws).map made).sum =
    (vs.map made).sum + made v + (ws.map made).sum := by
  rw [List.map_append, List.map_cons, List.sum_append, List.sum_cons, Nat.add_assoc]

namespace DifferAt

theorem length_eq (h : DifferAt old new path vs vs') : vs'.length = vs.length := by
  cases h <;> simp only [List.length_append, List.length_cons]

theorem exists_cons (h : DifferAt old new path vs vs') : ∃ i rest, path = i :: rest := by
  cases h <;> exact ⟨_, _, rfl⟩

theorem made_eq (h : DifferAt old new path vs vs') :
    ∃ k, (vs.map made).sum = k + made old ∧ (vs'.map made).sum = k + made new := by
  induction h with
  | here vs ws =>
    refine ⟨(vs.map made).sum + (ws.map made).sum, ?_, ?_⟩ <;> rw [sum_made] <;> omega
  | @inside path fields fields' us us' vs ws sound children deeper ih =>
    obtain ⟨k, hold, hnew⟩ := ih
    have hfields := made_of_sound sound children.before
    have hfields' := made_of_sound ((Component.isSound_congr children).trans sound) children.after
    rw [Component.decode_congr children] at hfields'
    refine ⟨(vs.map made).sum + (Component.decode fields 0).2 + k + (ws.map made).sum, ?_, ?_⟩ <;>
      rw [sum_made] <;> omega

end DifferAt

end Entry

namespace Node

open Entry (made givesId)

theorem twins_beside {v v' : Value} {k a b : Nat} (hv : made v = k + a) (hv' : made v' = k + b)
    (vs ws : List Value) (path p : List Nat) {i : Nat} (hi : i ≠ vs.length) (n : Nat) :
    Option.Rel (Twins a b (i :: p < vs.length :: path ∨
        (Entry.among? (vs ++ v :: ws) (i :: p)).any givesId = true))
      (rowAt? (decodeAll (vs ++ v :: ws) n).1 (i :: p))
      (rowAt? (decodeAll (vs ++ v' :: ws) n).1 (i :: p)) := by
  simp only [rowAt?, decodeAll_getElem?]
  rcases Nat.lt_or_gt_of_ne hi with hbefore | hafter
  · have hfixed : i :: p < vs.length :: path := List.cons_lt_cons_iff.mpr (.inl hbefore)
    have htake : ∀ u : Value, (vs ++ u :: ws).take i = vs.take i :=
      fun u => List.take_append_of_le_length hbefore.le
    have hget : ∀ u : Value, (vs ++ u :: ws)[i]? = vs[i]? :=
      fun u => List.getElem?_append_left hbefore
    simp only [htake, hget]
    exact Twins.rel_refl (.inl hfixed) _
  · obtain ⟨j, rfl⟩ : ∃ j, i = vs.length + (j + 1) := ⟨i - vs.length - 1, by omega⟩
    have hfree : ¬(vs.length + (j + 1)) :: p < vs.length :: path := by
      rw [List.cons_lt_cons_iff]
      omega
    have htake : ∀ u : Value, (vs ++ u :: ws).take (vs.length + (j + 1)) = vs ++ u :: ws.take j :=
      fun u => List.take_length_add_append (j + 1)
    have hget : ∀ u : Value, (vs ++ u :: ws)[vs.length + (j + 1)]? = ws[j]? := by
      intro u
      rw [List.getElem?_append_right (Nat.le_add_right ..), Nat.add_sub_cancel_left,
        List.getElem?_cons_succ]
    simp only [htake, hget, Entry.among?]
    cases ws[j]? with
    | none => exact .none
    | some w =>
      let before := n + (vs.map made).sum + k + ((ws.take j).map made).sum
      have hw := twins_at? p w (before + a) (before + b)
      have hn : before + a = n + ((vs ++ v :: ws.take j).map made).sum := by
        rw [Entry.sum_made]
        omega
      have hm : before + b = n + ((vs ++ v' :: ws.take j).map made).sum := by
        rw [Entry.sum_made]
        omega
      simp only [Option.map_some, Option.bind_some, ← hn, ← hm]
      exact Twins.rel_imp hw fun _ _ h => (h.shift before).imp (or_iff_right hfree)

theorem twins_of_differ {old new : Value} {path : List Nat} {vs vs' : List Value}
    (h : Entry.DifferAt old new path vs vs') (n : Nat) {p : List Nat} (hp : ¬path <+: p) :
    Option.Rel (Twins (made old) (made new)
        (p < path ∨ (Entry.among? vs p).any givesId = true))
      (rowAt? (decodeAll vs n).1 p) (rowAt? (decodeAll vs' n).1 p) := by
  induction h generalizing n p with
  | here vs ws =>
    cases p with
    | nil => exact .none
    | cons i p =>
      have hi : i ≠ vs.length := by
        rintro rfl
        exact hp (List.cons_prefix_cons.mpr ⟨rfl, List.nil_prefix⟩)
      exact twins_beside (Nat.zero_add _).symm (Nat.zero_add _).symm vs ws [] p hi n
  | @inside path fields fields' us us' vs ws sound children deeper ih =>
    have sound' := (Component.isSound_congr children).trans sound
    obtain ⟨k, hold, hnew⟩ := deeper.made_eq
    have hmade := Entry.made_of_sound sound children.before
    have hmade' := Entry.made_of_sound sound' children.after
    rw [Component.decode_congr children] at hmade'
    cases p with
    | nil => exact .none
    | cons i p =>
      by_cases hi : i = vs.length
      · subst hi
        have hget : ∀ u : Value, (vs ++ u :: ws)[vs.length]? = some u := by
          intro u
          rw [List.getElem?_append_right (Nat.le_refl _), Nat.sub_self]
          rfl
        have htake : ∀ u : Value, (vs ++ u :: ws).take vs.length = vs :=
          fun u => List.take_left
        have hp' : ¬path <+: p := fun hpre => hp (List.cons_prefix_cons.mpr ⟨rfl, hpre⟩)
        simp only [rowAt?, decodeAll_getElem?, hget, htake, Option.map_some, Option.bind_some,
          decode_sound sound children.before, decode_sound sound' children.after,
          Component.decode_congr children]
        cases p with
        | nil =>
          have hfixed : [vs.length] < vs.length :: path := by
            obtain ⟨j, rest, rfl⟩ := deeper.exists_cons
            exact List.cons_lt_cons_iff.mpr (.inr ⟨rfl, List.nil_lt_cons ..⟩)
          refine .some ⟨rfl, ?_, fun _ => rfl, fun hn => absurd (.inl hfixed) hn⟩
          simp only [Node.children, length_decodeAll, deeper.length_eq]
        | cons j p =>
          have hfixed : (vs.length :: j :: p < vs.length :: path ∨
              (Entry.among? (vs ++ .object fields :: ws) (vs.length :: j :: p)).any givesId =
                true) ↔
              (j :: p < path ∨ (Entry.among? us (j :: p)).any givesId = true) := by
            have hrow : Entry.row? (.object fields) = some us := by
              simp only [Entry.row?, Entry.below, sound, children.before]
              rfl
            simp only [List.cons_lt_cons_iff, Nat.lt_irrefl, Entry.among?, hget, Entry.at?, hrow,
              Option.bind_some, Option.getD_some, true_and, false_or]
          exact Twins.rel_imp (ih _ hp') fun _ _ h => h.imp hfixed
      · refine twins_beside (k := (Component.decode fields 0).2 + k) ?_ ?_ vs ws path p hi n
        · omega
        · omega

theorem exists_at?_decode {v w : Value} {path : List Nat} (h : Entry.at? v path = some w)
    (n : Nat) :
    ∃ m, (decode v n).1.at? path = some (decode w m).1 := by
  induction path generalizing v n with
  | nil =>
    obtain rfl : v = w := Option.some.inj h
    exact ⟨n, rfl⟩
  | cons i path ih =>
    obtain ⟨u, hu, hw⟩ := Option.bind_eq_some_iff.mp h
    obtain ⟨k, hk⟩ := exists_children_decode v
    cases hbelow : Entry.below v with
    | array vs =>
      simp only [Entry.row?, hbelow, Value.asArray?, Option.getD_some] at hu
      obtain ⟨m, hm⟩ := ih hw (n + k + ((vs.take i).map made).sum)
      refine ⟨m, ?_⟩
      simp only [at?, hk, hbelow, decodeEntries, decodeAll_getElem?, hu, Option.map_some,
        Option.bind_some, hm]
    | null | bool | number | string | object =>
      simp [Entry.row?, hbelow, Value.asArray?] at hu

theorem length_children_of_row {v : Value} {vs : List Value} (h : Entry.row? v = some vs)
    (n : Nat) : (decode v n).1.children.length = vs.length := by
  obtain ⟨k, hk⟩ := exists_children_decode v
  cases hbelow : Entry.below v with
  | array us =>
    obtain rfl : us = vs := by simpa [Entry.row?, hbelow, Value.asArray?] using h
    rw [hk, hbelow]
    exact length_decodeAll us _
  | null | bool | number | string | object => simp [Entry.row?, hbelow, Value.asArray?] at h

end Node

/-! ## Specifications -/

namespace Spec

/-- Two sources of specifications that differ in one entry at most, at the path among the roots. -/
def DifferAt (old new : Value) (path : List Nat) (v v' : Value) : Prop :=
  ∃ fields fields' vs vs', v = .object fields ∧ v' = .object fields' ∧
    Entry.DifferIn "components" fields fields' vs vs' ∧ Entry.DifferAt old new path vs vs'

def entries (v : Value) : List Value :=
  ((v.member? "components").bind Value.asArray?).getD []

/-- There is one root for each entry, and one child of a node for each entry in the list below the
entry that the node is decoded from. -/
def OneEach (v : Value) (s : Spec) : Prop :=
  s.roots.length = (entries v).length ∧
    ∀ path w ws, Entry.among? (entries v) path = some w → Entry.row? w = some ws →
      ∃ n, s.at? path = some n ∧ n.children.length = ws.length

theorem at?_eq (s : Spec) (path : List Nat) : s.at? path = Node.rowAt? s.roots path := by
  cases path <;> rfl

theorem entries_object {fields : Fields} {vs : List Value}
    (h : KeyMap.get? fields "components" = some (.array vs)) : entries (.object fields) = vs := by
  simp only [entries, Value.member?, h]
  rfl

theorem oneEach_ofFields {fields : Fields} {vs : List Value}
    (h : KeyMap.get? fields "components" = some (.array vs)) :
    (ofFields fields).roots = (Node.decodeAll vs 0).1 ∧
      OneEach (.object fields) (ofFields fields) := by
  have hroots : (ofFields fields).roots = (Node.decodeAll vs 0).1 := by
    simp only [ofFields, decodeRoots, h]
    rfl
  have hentries := entries_object h
  refine ⟨hroots, ?_, ?_⟩
  · rw [hroots, hentries, Node.length_decodeAll]
  · intro path w ws hw hws
    rw [hentries] at hw
    rw [at?_eq, hroots]
    cases path with
    | nil => cases hw
    | cons i path =>
      obtain ⟨u, hu, hw⟩ := Option.bind_eq_some_iff.mp hw
      obtain ⟨m, hm⟩ := Node.exists_at?_decode hw ((vs.take i).map Entry.made).sum
      refine ⟨_, ?_, Node.length_children_of_row hws m⟩
      simp only [Node.rowAt?, Node.decodeAll_getElem?, hu, Option.map_some, Option.bind_some,
        Nat.zero_add, hm]

/-- Where one entry is replaced by any other, whatever is above it being sound, all decodes as
before but the node of this entry. There is one node for each entry; outside of the one entry the
trees have the same shape, and the nodes say the same of themselves. Ids are the same where entries
give them, and for all nodes that come before the replaced one in pre-order, those above it
included. Those that are made afterwards have other numbers, as many ids as the one entry makes more
than the other. -/
theorem replaced_entry_contained {old new v v' : Value} {path : List Nat}
    (h : DifferAt old new path v v') :
    ∃ s s', decode v = .ok s ∧ decode v' = .ok s' ∧ s' = { s with roots := s'.roots } ∧
      OneEach v s ∧ OneEach v' s' ∧ s'.roots.length = s.roots.length ∧
      ∀ p, ¬path <+: p →
        let fixed := p < path ∨ (Entry.among? (entries v) p).any Entry.givesId = true
        Option.Rel (Node.Twins (Entry.made old) (Entry.made new) fixed) (s.at? p) (s'.at? p) := by
  obtain ⟨fields, fields', vs, vs', rfl, rfl, hroots, hdiffer⟩ := h
  obtain ⟨hnodes, hone⟩ := oneEach_ofFields hroots.before
  obtain ⟨hnodes', hone'⟩ := oneEach_ofFields hroots.after
  refine ⟨_, _, rfl, rfl, ?_, hone, hone', ?_, fun p hp => ?_⟩
  · simp only [ofFields, Fields.string?, Fields.object?, Fields.textsAt?, Fields.firstOf?,
      hroots.others "title" (by decide), hroots.others "layout" (by decide),
      hroots.others "style" (by decide), hroots.others "services" (by decide),
      hroots.others "lifecycle_hooks" (by decide), hroots.others "lifecycleHooks" (by decide)]
  · rw [hnodes, hnodes', Node.length_decodeAll, Node.length_decodeAll, hdiffer.length_eq]
  · rw [at?_eq, at?_eq, hnodes, hnodes', entries_object hroots.before]
    exact Node.twins_of_differ hdiffer 0 hp

/-- A number in a list of children is replaced by an entry with two texts, so three ids are made in
place of one. The text beside it is numbered two higher, and nothing else is noticed. -/
theorem replaced_number_by_texts :
    let old : Value := .nat 17
    let new : Value := .object [("children", .array [.string "u", .string "v"])]
    let card (v : Value) : Value := .object [("children", .array [v, .string "t"]),
      ("id", .string "c"), ("type", .string "card")]
    let roots (v : Value) : List Value := [.string "a", card v, .object [("id", .nat 3)]]
    let source (v : Value) : Value := .object [("components", .array (roots v))]
    DifferAt old new [1, 0] (source old) (source new) ∧
      ∃ s s', decode (source old) = .ok s ∧ decode (source new) = .ok s' ∧
        s.ids = ["text-0", "c", "invalid-1", "text-2", "3"] ∧
        s'.ids = ["text-0", "c", "container-1", "text-2", "text-3", "text-4", "3"] ∧
        Option.Rel (Node.Twins 1 3 False) (s.at? [1, 1]) (s'.at? [1, 1]) := by
  intro old new card roots source
  have hfirst : ∀ (name : String) (vs vs' : List Value) (more : Fields),
      Entry.DifferIn name ((name, .array vs) :: more) ((name, .array vs') :: more) vs vs' := by
    intro name vs vs' more
    refine ⟨if_pos rfl, if_pos rfl, fun other h => ?_⟩
    rw [KeyMap.get?, KeyMap.get?, if_neg h.symm, if_neg h.symm]
  have hdiffer : DifferAt old new [1, 0] (source old) (source new) :=
    ⟨_, _, _, _, rfl, rfl, hfirst "components" (roots old) (roots new) [],
      .inside [.string "a"] [.object [("id", .nat 3)]] rfl (hfirst "children" _ _ _)
        (.here [] [.string "t"])⟩
  obtain ⟨s, s', hs, hs', -, -, -, -, htwins⟩ := replaced_entry_contained hdiffer
  cases hs
  cases hs'
  refine ⟨hdiffer, _, _, rfl, rfl, by decide, by decide, ?_⟩
  have htext := htwins [1, 1] (by decide)
  exact Node.Twins.rel_imp htext fun _ _ h => h.imp (by decide)

end Spec

end DynamicUi
