import DynamicUi.KeyMap

/-! # Maps stay in order

The order of keys is a strict linear order, so inserting and erasing keep a map in order. In an
ordered map every entry is the one its key finds, and an insertion replaces at most one entry. In a
map that is made of a list of entries, a key finds the last entry of that key.
-/

namespace DynamicUi

theorem precedesChars_irrefl (a : List Char) : precedesChars a a = false := by
  induction a with
  | nil => rfl
  | cons c a ih => simp [precedesChars, ih]

theorem precedesChars_trans {a b c : List Char} (hab : precedesChars a b = true)
    (hbc : precedesChars b c = true) : precedesChars a c = true := by
  induction a generalizing b c with
  | nil =>
    match b, c with
    | _ :: _, _ :: _ => rfl
    | [], _ => cases hab
    | _ :: _, [] => cases hbc
  | cons x a ih =>
    match b, c with
    | [], _ => cases hab
    | _ :: _, [] => cases hbc
    | y :: b, z :: c =>
      simp only [precedesChars] at hab hbc ⊢
      by_cases hxy : x = y
      · subst hxy
        rw [if_pos rfl] at hab
        by_cases hyz : x = z
        · rw [if_pos hyz] at hbc ⊢
          exact ih hab hbc
        · rw [if_neg hyz] at hbc ⊢
          exact hbc
      · rw [if_neg hxy] at hab
        by_cases hyz : y = z
        · subst hyz
          rw [if_neg hxy]
          exact hab
        · rw [if_neg hyz] at hbc
          have hlt : x.toNat < z.toNat := by
            have h₁ : x.toNat < y.toNat := by simpa using hab
            have h₂ : y.toNat < z.toNat := by simpa using hbc
            omega
          have hne : x ≠ z := by
            rintro rfl
            exact Nat.lt_irrefl _ hlt
          rw [if_neg hne]
          simpa using hlt

theorem precedesChars_total {a b : List Char} (hne : a ≠ b) (h : precedesChars a b = false) :
    precedesChars b a = true := by
  induction a generalizing b with
  | nil =>
    match b with
    | [] => exact absurd rfl hne
    | _ :: _ => cases h
  | cons x a ih =>
    match b with
    | [] => rfl
    | y :: b =>
      simp only [precedesChars] at h ⊢
      by_cases hxy : x = y
      · subst hxy
        rw [if_pos rfl] at h ⊢
        apply ih _ h
        rintro rfl
        exact hne rfl
      · rw [if_neg hxy] at h
        rw [if_neg (Ne.symm hxy)]
        have hle : y.toNat ≤ x.toNat := Nat.le_of_not_lt fun hlt =>
          absurd (Nat.blt_eq.mpr hlt) (Bool.eq_false_iff.mp h)
        have hn : y.toNat ≠ x.toNat := by
          intro he
          exact hxy (Char.toNat_inj.mp he).symm
        simpa using Nat.lt_of_le_of_ne hle hn

theorem precedes_irrefl (a : String) : precedes a a = false := precedesChars_irrefl a.toList

theorem precedes_trans {a b c : String} (hab : precedes a b = true) (hbc : precedes b c = true) :
    precedes a c = true := precedesChars_trans hab hbc

theorem precedes_total {a b : String} (hne : a ≠ b) (h : precedes a b = false) :
    precedes b a = true := by
  apply precedesChars_total _ h
  intro he
  exact hne (String.toList_inj.mp he)

theorem ne_of_precedes {a b : String} (h : precedes a b = true) : a ≠ b := by
  rintro rfl
  rw [precedes_irrefl] at h
  cases h

theorem precedes_asymm {a b : String} (h : precedes a b = true) : ¬precedes b a = true :=
  fun hba => ne_of_precedes (precedes_trans h hba) rfl

namespace KeyMap

variable {α : Type} {m : KeyMap α} {k : String} {v : α}

theorem get?_eq_none (h : ∀ e ∈ m, e.1 ≠ k) : get? m k = none := by
  induction m with
  | nil => rfl
  | cons e m ih =>
    obtain ⟨j, w⟩ := e
    rw [get?, if_neg (h (j, w) List.mem_cons_self)]
    apply ih
    intro e he
    exact h e (List.mem_cons_of_mem _ he)

theorem get?_append (m m' : KeyMap α) (k : String) :
    get? (m ++ m') k = (get? m k).or (get? m' k) := by
  induction m with
  | nil => rfl
  | cons e m ih =>
    obtain ⟨j, v⟩ := e
    simp only [List.cons_append, get?]
    split
    · rfl
    · exact ih

theorem get?_ofList (entries : List (String × α)) (k : String) :
    get? (ofList entries) k = get? entries.reverse k := by
  have hfold : ∀ (entries : List (String × α)) (m : KeyMap α),
      get? (entries.foldl (fun m e => insert m e.1 e.2) m) k =
        (get? entries.reverse k).or (get? m k) := by
    intro entries
    induction entries with
    | nil => exact fun _ => rfl
    | cons e entries ih =>
      intro m
      rw [List.foldl_cons, ih, get?_insert, List.reverse_cons, get?_append, Option.or_assoc]
      congr 1
      simp only [get?]
      split <;> rfl
  rw [ofList, hfold, get?_nil, Option.or_none]

theorem get?_insert_of_ne (m : KeyMap α) {k k' : String} (h : k ≠ k') (v : α) :
    get? (insert m k v) k' = get? m k' := by
  rw [get?_insert, if_neg h]

theorem get?_erase_of_ne (m : KeyMap α) {k k' : String} (h : k ≠ k') :
    get? (erase m k) k' = get? m k' := by
  rw [get?_erase, if_neg h]

theorem mem_of_get? (h : get? m k = some v) : (k, v) ∈ m := by
  induction m with
  | nil => cases h
  | cons e m ih =>
    obtain ⟨j, w⟩ := e
    simp only [get?] at h
    split at h
    · next hj =>
      cases h
      exact hj ▸ List.mem_cons_self
    · exact List.mem_cons_of_mem _ (ih h)

theorem Ordered.get?_of_mem (h : Ordered m) {e : String × α} (he : e ∈ m) :
    get? m e.1 = some e.2 := by
  induction m with
  | nil => cases he
  | cons e' m ih =>
    obtain ⟨j, w⟩ := e'
    obtain ⟨hj, hm⟩ := List.pairwise_cons.mp h
    rcases List.mem_cons.mp he with rfl | he
    · exact if_pos rfl
    · rw [get?, if_neg (ne_of_precedes (hj e he))]
      exact ih hm he

theorem mem_insert {e : String × α} (he : e ∈ insert m k v) : e = (k, v) ∨ e ∈ m := by
  induction m with
  | nil => exact .inl (List.mem_singleton.mp he)
  | cons e' m ih =>
    obtain ⟨j, w⟩ := e'
    simp only [insert] at he
    split at he
    · rcases List.mem_cons.mp he with h | h
      · exact .inl h
      · exact .inr (List.mem_cons_of_mem _ h)
    · split at he
      · exact List.mem_cons.mp he
      · rcases List.mem_cons.mp he with h | h
        · exact .inr (h ▸ List.mem_cons_self)
        · exact (ih h).imp_right (List.mem_cons_of_mem _)

theorem Ordered.insert (h : Ordered m) (k : String) (v : α) : Ordered (insert m k v) := by
  induction m with
  | nil => exact List.pairwise_singleton _ _
  | cons e m ih =>
    obtain ⟨j, w⟩ := e
    obtain ⟨hj, hm⟩ := List.pairwise_cons.mp h
    simp only [KeyMap.insert]
    split
    · next hjk => exact List.pairwise_cons.mpr ⟨fun e he => hjk ▸ hj e he, hm⟩
    · next hjk =>
      split
      · next hk =>
        refine List.pairwise_cons.mpr ⟨?_, h⟩
        intro e he
        rcases List.mem_cons.mp he with rfl | he
        · exact hk
        · exact precedes_trans hk (hj e he)
      · next hk =>
        refine List.pairwise_cons.mpr ⟨?_, ih hm⟩
        intro e he
        rcases mem_insert he with rfl | he
        · exact precedes_total (Ne.symm hjk) (Bool.eq_false_iff.mpr hk)
        · exact hj e he

theorem Ordered.erase (h : Ordered m) (k : String) : Ordered (erase m k) := List.Pairwise.filter _ h

theorem get?_eq_none_iff {m : KeyMap α} {k : String} : get? m k = none ↔ k ∉ keys m := by
  rw [mem_keys_iff, not_exists, Option.eq_none_iff_forall_ne_some]

theorem keys_insert_congr {β : Type} {m : KeyMap α} {m' : KeyMap β} (h : keys m = keys m')
    (k : String) (v : α) (v' : β) : keys (insert m k v) = keys (insert m' k v') := by
  induction m generalizing m' with
  | nil =>
    obtain rfl : m' = [] := List.map_eq_nil_iff.mp h.symm
    rfl
  | cons e m ih =>
    cases m' with
    | nil => cases h
    | cons e' m' =>
      obtain ⟨j, w⟩ := e
      obtain ⟨j', w'⟩ := e'
      obtain ⟨rfl, hm⟩ : j = j' ∧ keys m = keys m' := List.cons_eq_cons.mp h
      simp only [insert]
      split
      · exact congrArg (k :: ·) hm
      · split
        · exact congrArg (k :: j :: ·) hm
        · exact congrArg (j :: ·) (ih hm)

theorem Ordered.keys_insert {m : KeyMap α} (h : Ordered m) {k : String} (hk : k ∈ keys m) (v : α) :
    keys (KeyMap.insert m k v) = keys m := by
  induction m with
  | nil => cases hk
  | cons e m ih =>
    obtain ⟨j, w⟩ := e
    obtain ⟨hj, hm⟩ := List.pairwise_cons.mp h
    simp only [KeyMap.insert]
    split
    · next he => rw [he]; rfl
    · next hne =>
      have hk : k ∈ keys m := (List.mem_cons.mp hk).resolve_left (Ne.symm hne)
      obtain ⟨e, he, rfl⟩ := List.mem_map.mp hk
      split
      · next hp => exact absurd (hj e he) (precedes_asymm hp)
      · exact congrArg (j :: ·) (ih hm hk)

theorem keys_erase (m : KeyMap α) (k : String) : keys (erase m k) = (keys m).filter (· != k) := by
  simp only [keys, erase, List.filter_map]
  rfl

theorem erase_of_get?_eq_none {m : KeyMap α} {k : String} (h : get? m k = none) :
    erase m k = m := by
  refine List.filter_eq_self.mpr fun e he => bne_iff_ne.mpr ?_
  rintro rfl
  exact get?_eq_none_iff.mp h (List.mem_map.mpr ⟨e, he, rfl⟩)

theorem ordered_iff_keys : Ordered m ↔ (keys m).Pairwise fun j k => precedes j k = true := by
  rw [keys, List.pairwise_map]
  rfl

theorem Ordered.erase_cons {e : String × α} (h : Ordered (e :: m)) :
    KeyMap.erase (e :: m) e.1 = m := by
  have hne : ∀ e' ∈ m, (e'.1 != e.1) = true := by
    intro e' he
    exact bne_iff_ne.mpr (ne_of_precedes ((List.pairwise_cons.mp h).1 e' he)).symm
  rw [KeyMap.erase, List.filter_cons_of_neg (by simp), List.filter_eq_self.mpr hne]

/-! ### Several changes

These hold of lists that are not in order as well, where two lists that answer alike may differ. -/

theorem insert_insert (m : KeyMap α) (k : String) (v w : α) :
    insert (insert m k v) k w = insert m k w := by
  induction m with
  | nil => exact if_pos rfl
  | cons e m ih =>
    obtain ⟨j, u⟩ := e
    simp only [insert]
    split
    · exact if_pos rfl
    · next hj =>
      split
      · exact if_pos rfl
      · next hp => simp only [insert, if_neg hj, if_neg hp, ih]

theorem insert_comm_of_precedes {j k : String} (h : precedes j k = true) (m : KeyMap α)
    (v w : α) : insert (insert m k w) j v = insert (insert m j v) k w := by
  have hjk : j ≠ k := ne_of_precedes h
  have hkj : ¬precedes k j = true := precedes_asymm h
  induction m with
  | nil => simp only [insert, if_neg hjk, if_neg hjk.symm, if_pos h, if_neg hkj]
  | cons e m ih =>
    obtain ⟨i, u⟩ := e
    by_cases hik : i = k
    · subst hik
      simp only [insert, if_true, if_neg hjk, if_neg hjk.symm, if_pos h, if_neg hkj]
    · by_cases hij : i = j
      · subst hij
        simp only [insert, if_true, if_neg hik, if_neg hkj]
      · by_cases hki : precedes k i = true
        · have hji : precedes j i = true := precedes_trans h hki
          simp only [insert, if_neg hik, if_neg hij, if_pos hki, if_pos hji, if_neg hjk,
            if_neg hjk.symm, if_pos h, if_neg hkj]
        · by_cases hji : precedes j i = true
          · simp only [insert, if_neg hik, if_neg hij, if_neg hki, if_pos hji, if_neg hjk,
              if_neg hkj]
          · simp only [insert, if_neg hik, if_neg hij, if_neg hki, if_neg hji, ih]

theorem insert_comm {j k : String} (h : j ≠ k) (m : KeyMap α) (v w : α) :
    insert (insert m k w) j v = insert (insert m j v) k w := by
  cases hjk : precedes j k with
  | true => exact insert_comm_of_precedes hjk m v w
  | false => exact (insert_comm_of_precedes (precedes_total h hjk) m w v).symm

theorem erase_insert_self (m : KeyMap α) (k : String) (v : α) :
    erase (insert m k v) k = erase m k := by
  induction m with
  | nil => simp [insert, erase]
  | cons e m ih =>
    obtain ⟨j, u⟩ := e
    simp only [insert]
    split
    · next hj => simp [erase, hj]
    · split
      · simp [erase]
      · simp only [erase, List.filter_cons] at ih ⊢
        rw [ih]

theorem erase_insert_of_precedes {j k : String} (h : precedes j k = true) (m : KeyMap α) (w : α) :
    erase (insert m k w) j = insert (erase m j) k w := by
  have hjk : j ≠ k := ne_of_precedes h
  have hkj : ¬precedes k j = true := precedes_asymm h
  have hcons : ∀ (i : String) (u : α) (m : KeyMap α),
      erase ((i, u) :: m) j = if i = j then erase m j else (i, u) :: erase m j := by
    intro i u m
    simp only [erase, List.filter_cons, bne_iff_ne, ite_not]
  induction m with
  | nil =>
    simp only [insert, hcons, if_neg hjk.symm]
    rfl
  | cons e m ih =>
    obtain ⟨i, u⟩ := e
    by_cases hik : i = k
    · subst hik
      simp only [insert, if_true, hcons, if_neg hjk.symm]
    · by_cases hij : i = j
      · subst hij
        simp only [insert, if_neg hik, if_neg hkj, hcons, if_true, ih]
      · by_cases hki : precedes k i = true
        · simp only [insert, if_neg hik, if_pos hki, hcons, if_neg hjk.symm, if_neg hij]
        · simp only [insert, if_neg hik, if_neg hki, hcons, if_neg hij, ih]

theorem erase_erase (m : KeyMap α) (k : String) : erase (erase m k) k = erase m k :=
  erase_of_get?_eq_none (by rw [get?_erase, if_pos rfl])

/-! ### Sums -/

def total (f : α → Nat) (m : KeyMap α) : Nat := m.foldr (fun e n => f e.2 + n) 0

theorem total_insert (h : Ordered m) (f : α → Nat) (k : String) (v : α) :
    total f (insert m k v) + ((get? m k).map f).getD 0 = total f m + f v := by
  induction m with
  | nil => simp [insert, total]
  | cons e m ih =>
    obtain ⟨j, w⟩ := e
    obtain ⟨hj, hm⟩ := List.pairwise_cons.mp h
    have hcons : ∀ (e : String × α) (m : KeyMap α), total f (e :: m) = f e.2 + total f m :=
      fun _ _ => rfl
    simp only [insert]
    split
    · next hjk =>
      simp only [get?, if_pos hjk, hcons, Option.map_some, Option.getD_some]
      omega
    · next hjk =>
      rw [get?, if_neg hjk]
      split
      · next hk =>
        have hn : get? m k = none := by
          apply get?_eq_none
          intro e he
          exact (ne_of_precedes (precedes_trans hk (hj e he))).symm
        simp only [hn, hcons, Option.map_none, Option.getD_none]
        omega
      · have hi := ih hm
        simp only [hcons]
        omega

theorem total_eq_zero (h : Ordered m) {f : α → Nat} (hf : ∀ k v, get? m k = some v → f v = 0) :
    total f m = 0 := by
  have hmem : ∀ e ∈ m, f e.2 = 0 := by
    intro e he
    exact hf e.1 e.2 (h.get?_of_mem he)
  clear h hf
  induction m with
  | nil => rfl
  | cons e m ih =>
    have hz := ih fun e he => hmem e (List.mem_cons_of_mem _ he)
    have he := hmem e List.mem_cons_self
    show f e.2 + total f m = 0
    omega

end KeyMap

end DynamicUi
