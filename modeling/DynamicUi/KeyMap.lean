/-! # Maps ordered by key

A map is the list of its entries, by ascending code points of the keys, each key once.
`insert` and `erase` keep that order, so two maps with the same entries are equal.
-/

namespace DynamicUi

/-- Lexicographic order by code point, which is also the order of the UTF-8 bytes. -/
def precedesChars : List Char → List Char → Bool
  | [], [] => false
  | [], _ :: _ => true
  | _ :: _, [] => false
  | a :: as, b :: bs => if a = b then precedesChars as bs else Nat.blt a.toNat b.toNat

def precedes (a b : String) : Bool := precedesChars a.toList b.toList

abbrev KeyMap (α : Type) := List (String × α)

namespace KeyMap

variable {α β : Type}

def get? : KeyMap α → String → Option α
  | [], _ => none
  | (k', v) :: m, k => if k' = k then some v else get? m k

def insert : KeyMap α → String → α → KeyMap α
  | [], k, v => [(k, v)]
  | (k', v') :: m, k, v =>
    if k' = k then (k, v) :: m
    else if precedes k k' then (k, v) :: (k', v') :: m
    else (k', v') :: insert m k v

def erase (m : KeyMap α) (k : String) : KeyMap α := List.filter (fun e => e.1 != k) m

def contains (m : KeyMap α) (k : String) : Bool := (get? m k).isSome

def keys (m : KeyMap α) : List String := List.map Prod.fst m

def values (m : KeyMap α) : List α := List.map Prod.snd m

/-- Inserts the entries in turn, so the last value of a repeated key stays. -/
def ofList (entries : List (String × α)) : KeyMap α :=
  entries.foldl (fun m e => insert m e.1 e.2) []

/-- Changes the value of one key, starting from `dflt` where it is absent. -/
def modify (m : KeyMap α) (k : String) (dflt : α) (f : α → α) : KeyMap α :=
  insert m k (f ((get? m k).getD dflt))

def mapValues (f : α → β) (m : KeyMap α) : KeyMap β := List.map (fun e => (e.1, f e.2)) m

def Ordered (m : KeyMap α) : Prop := List.Pairwise (fun a b => precedes a.1 b.1 = true) m

@[simp] theorem get?_nil (k : String) : get? ([] : KeyMap α) k = none := rfl

theorem get?_insert (m : KeyMap α) (k k' : String) (v : α) :
    get? (insert m k v) k' = if k = k' then some v else get? m k' := by
  induction m with
  | nil => simp [insert, get?]
  | cons e m ih =>
    obtain ⟨j, w⟩ := e
    simp only [insert]
    split
    · subst j; simp only [get?]; split <;> rfl
    · split
      · simp only [get?]
      · simp only [get?, ih]
        split
        · subst j; rename_i h _; simp [Ne.symm h]
        · rfl

theorem get?_erase (m : KeyMap α) (k k' : String) :
    get? (erase m k) k' = if k = k' then none else get? m k' := by
  induction m with
  | nil => simp [erase]
  | cons e m ih =>
    obtain ⟨j, w⟩ := e
    simp only [erase] at ih ⊢
    by_cases hj : j = k
    · subst j; simp only [List.filter, bne_self_eq_false, ih, get?]; split <;> rfl
    · simp only [List.filter, bne_iff_ne.mpr hj, get?, ih]
      split
      · subst j; simp [Ne.symm hj]
      · rfl

theorem get?_modify (m : KeyMap α) (k k' : String) (d : α) (f : α → α) :
    get? (modify m k d f) k' = if k = k' then some (f ((get? m k).getD d)) else get? m k' :=
  get?_insert m k k' _

theorem of_get?_ofList {P : α → Prop} {entries : List (String × α)} (h : ∀ e ∈ entries, P e.2)
    {k : String} {v : α} (hv : get? (ofList entries) k = some v) : P v := by
  have hfold : ∀ (entries : List (String × α)) (m : KeyMap α), (∀ e ∈ entries, P e.2) →
      (∀ k v, get? m k = some v → P v) →
      ∀ k v, get? (entries.foldl (fun m e => insert m e.1 e.2) m) k = some v → P v := by
    intro entries
    induction entries with
    | nil => exact fun _ _ hm => hm
    | cons e entries ih =>
      intro m he hm
      refine ih _ (fun e' he' => he e' (List.mem_cons_of_mem _ he')) fun k v hk => ?_
      rw [get?_insert] at hk
      split at hk
      · cases hk; exact he e List.mem_cons_self
      · exact hm k v hk
  exact hfold entries [] h (fun _ _ hk => by cases hk) k v hv

theorem mem_keys_iff {m : KeyMap α} {k : String} : k ∈ keys m ↔ ∃ v, get? m k = some v := by
  induction m with
  | nil => simp [keys]
  | cons e m ih =>
    obtain ⟨j, w⟩ := e
    simp only [keys] at ih
    simp only [keys, get?, List.map_cons, List.mem_cons, ih]
    by_cases hj : j = k
    · simp [hj]
    · simp [hj, Ne.symm hj]

theorem mem_keys_insert {m : KeyMap α} {j k : String} {v : α} :
    j ∈ keys (insert m k v) ↔ j = k ∨ j ∈ keys m := by
  simp only [mem_keys_iff, get?_insert]
  by_cases h : k = j
  · simp [h]
  · simp [h, Ne.symm h]

end KeyMap

abbrev NameSet := KeyMap Unit

namespace NameSet

def add (s : NameSet) (name : String) : NameSet := KeyMap.insert s name ()

def addAll (s : NameSet) (names : List String) : NameSet := names.foldl add s

def names (s : NameSet) : List String := KeyMap.keys s

def mem (s : NameSet) (name : String) : Bool := KeyMap.contains s name

theorem mem_names_add {s : NameSet} {name c : String} :
    c ∈ (s.add name).names ↔ c = name ∨ c ∈ s.names := KeyMap.mem_keys_insert

theorem mem_names_addAll {s : NameSet} {names : List String} {c : String} :
    c ∈ (s.addAll names).names ↔ c ∈ names ∨ c ∈ s.names := by
  induction names generalizing s with
  | nil => simp [addAll]
  | cons name names ih =>
    have h : s.addAll (name :: names) = (s.add name).addAll names := rfl
    rw [h, ih, mem_names_add, List.mem_cons, or_left_comm, or_assoc]

end NameSet

end DynamicUi
