import DynamicUi.Diagnostics.Trace
import DynamicUi.Proofs.Diagnostics.Spelling

/-! # Trace parents there and back

A trace-parent text holds a trace and the first half of a span in digits. What is read from one that
was written is the trace and this half, and what is written for one that was read are its digits in
lower case. No part has a hyphen in it, so of a spelling only the plain form comes up.
-/

namespace DynamicUi

namespace Text

theorem pieces_eq_splitOn (separator : Char) (cs : List Char) :
    pieces separator cs = cs.splitOn separator := by
  induction cs with
  | nil => rfl
  | cons c cs ih =>
    obtain ⟨first, rest, hcs⟩ := List.exists_cons_of_ne_nil (List.splitOn_ne_nil separator cs)
    rw [pieces, ih, List.splitOn_cons_eq_if_modifyHead, hcs]
    by_cases hc : c = separator <;> simp [hc]

theorem not_mem_of_mem_splitOn {separator : Char} {cs piece : List Char}
    (h : piece ∈ cs.splitOn separator) : separator ∉ piece := by
  induction cs generalizing piece with
  | nil =>
    obtain rfl : piece = [] := List.mem_singleton.mp h
    exact List.not_mem_nil
  | cons c cs ih =>
    obtain ⟨first, rest, hcs⟩ := List.exists_cons_of_ne_nil (List.splitOn_ne_nil separator cs)
    rw [hcs] at ih
    rw [List.splitOn_cons_eq_if_modifyHead, hcs] at h
    by_cases hc : c = separator
    · rw [if_pos (by simpa using hc)] at h
      rcases List.mem_cons.mp h with rfl | h
      · exact List.not_mem_nil
      · exact ih h
    · rw [if_neg (by simpa using hc), List.modifyHead_cons] at h
      rcases List.mem_cons.mp h with rfl | h
      · rw [List.mem_cons, not_or]
        exact ⟨Ne.symm hc, ih List.mem_cons_self⟩
      · exact ih (List.mem_cons_of_mem first h)

end Text

open Text

namespace Trace

variable {s : Uuid.Spelling}

/-! ## Half a span -/

theorem value?_zeros (n : Nat) : Hex.value? (List.replicate n '0') = some 0 := by
  induction n with
  | zero => rfl
  | succ n ih =>
    rw [List.replicate_succ', Hex.value?_concat, ih]
    rfl

variable {half : List Char}

theorem toList_filled (half : List Char) :
    (String.ofList half ++ "0000000000000000").toList = half ++ List.replicate 16 '0' := by
  rw [String.toList_append, String.toList_ofList]
  rfl

theorem digits_filled_iff :
    Hex.Digits 32 (half ++ List.replicate 16 '0') ↔ Hex.Digits 16 half := by
  have hzeros : ∀ c ∈ List.replicate 16 '0', Hex.isDigit c = true :=
    fun c hc => List.eq_of_mem_replicate hc ▸ rfl
  constructor
  · rintro ⟨hlength, hdigits⟩
    rw [List.length_append, List.length_replicate] at hlength
    exact ⟨by omega, (List.forall_mem_append.mp hdigits).1⟩
  · rintro ⟨hlength, hdigits⟩
    exact ⟨by rw [List.length_append, hlength]; rfl, List.forall_mem_append.mpr ⟨hdigits, hzeros⟩⟩

theorem isSome_spanOfHalf?_iff (hs : s.Lawful) (h : '-' ∉ half) :
    (spanOfHalf? s half).isSome = true ↔ Hex.Digits 16 half := by
  rw [spanOfHalf?, hs.accepts, toList_filled, digits_filled_iff]
  rw [toList_filled, List.mem_append, not_or]
  exact ⟨h, by decide⟩

theorem exists_spanOfHalf? (hs : s.Lawful) (h : Hex.Digits 16 half) :
    ∃ high, spanOfHalf? s half = some ⟨high, 0⟩ ∧ Hex.value? half = some high.toNat := by
  have hfilled : Hex.Digits 32 (String.ofList half ++ "0000000000000000").toList :=
    toList_filled half ▸ digits_filled_iff.mpr h
  have hplain := Uuid.not_mem_of_digits hfilled
  obtain ⟨⟨high, low⟩, hu⟩ := Option.isSome_iff_exists.mp ((hs.accepts hplain).mpr hfilled)
  obtain ⟨hhigh, hlow⟩ := hs.positions hplain hu
  rw [toList_filled, List.take_left' h.length] at hhigh
  rw [toList_filled, List.drop_left' h.length, value?_zeros] at hlow
  obtain rfl : low = 0 := UInt64.toNat_inj.mp (Option.some.inj hlow).symm
  exact ⟨high, hu, hhigh⟩

/-! ## Four parts -/

variable {text : String} {version trace flags : List Char}

theorem plain_of_parts (h : text.toList.splitOn '-' = [version, trace, half, flags]) :
    '-' ∉ trace ∧ '-' ∉ half := by
  have hplain : ∀ piece ∈ [version, trace, half, flags], '-' ∉ piece :=
    h ▸ fun _ => not_mem_of_mem_splitOn
  exact ⟨hplain trace (by simp), hplain half (by simp)⟩

theorem ofTraceParentIn?_of_parts
    (h : text.toList.splitOn '-' = [version, trace, half, flags]) :
    ofTraceParentIn? s text = (s.read? (String.ofList trace)).bind fun traceId =>
      (spanOfHalf? s half).map (root traceId) := by
  simp only [ofTraceParentIn?, pieces_eq_splitOn, h]
  cases s.read? (String.ofList trace) <;> cases spanOfHalf? s half <;> rfl

theorem isSome_ofTraceParentIn?_iff (hs : s.Lawful) (text : String) :
    (ofTraceParentIn? s text).isSome = true ↔ ∃ version trace half flags,
      text.toList.splitOn '-' = [version, trace, half, flags] ∧ Hex.Digits 32 trace ∧
        Hex.Digits 16 half := by
  have haccepts : ∀ {version trace half flags},
      text.toList.splitOn '-' = [version, trace, half, flags] →
      ((ofTraceParentIn? s text).isSome = true ↔ Hex.Digits 32 trace ∧ Hex.Digits 16 half) := by
    intro version trace half flags htext
    obtain ⟨htrace, hhalf⟩ := plain_of_parts htext
    have hread : (s.read? (String.ofList trace)).isSome = true ↔ Hex.Digits 32 trace := by
      have hplain : '-' ∉ (String.ofList trace).toList := by rwa [String.toList_ofList]
      rw [hs.accepts hplain, String.toList_ofList]
    rw [ofTraceParentIn?_of_parts htext, ← hread, ← isSome_spanOfHalf?_iff hs hhalf]
    cases s.read? (String.ofList trace) <;> cases spanOfHalf? s half <;> simp
  constructor
  · intro h
    have hparts := h
    simp only [ofTraceParentIn?, pieces_eq_splitOn] at hparts
    split at hparts
    · next version trace half flags htext =>
      exact ⟨version, trace, half, flags, htext, (haccepts htext).mp h⟩
    · cases hparts
  · rintro ⟨version, trace, half, flags, htext, hdigits⟩
    exact (haccepts htext).mpr hdigits

theorem toList_traceParentIn (hs : s.Lawful) (c : Trace) : (c.traceParentIn s).toList =
    ['0', '0', '-'] ++ c.traceId.simpleChars ++ '-' :: Hex.padded 16 c.spanId.high.toNat ++
      ['-', '0', '1'] := by
  simp only [traceParentIn, String.toList_append, String.toList_ofList, hs.toList_plain,
    Uuid.take_simpleChars]
  simp

theorem splitOn_traceParentIn (hs : s.Lawful) (c : Trace) :
    (c.traceParentIn s).toList.splitOn '-' =
      [['0', '0'], c.traceId.simpleChars, Hex.padded 16 c.spanId.high.toNat, ['0', '1']] := by
  have hplain : ∀ u : Uuid, '-' ∉ u.simpleChars :=
    fun u => hs.toList_plain u ▸ Uuid.not_mem_of_digits (hs.digits u)
  have hhalf : '-' ∉ Hex.padded 16 c.spanId.high.toNat :=
    fun hmem => hplain c.spanId (List.mem_append_left _ hmem)
  have hjoined : (c.traceParentIn s).toList = ['-'].intercalate
      [['0', '0'], c.traceId.simpleChars, Hex.padded 16 c.spanId.high.toNat, ['0', '1']] := by
    rw [toList_traceParentIn hs]
    simp [List.intercalate]
  rw [hjoined]
  refine List.splitOn_intercalate _ ?_ (by simp)
  simp only [List.forall_mem_cons, List.not_mem_nil, false_imp_iff, implies_true, and_true]
  exact ⟨by decide, hplain _, hhalf, by decide⟩

theorem exists_ofTraceParentIn? (hs : s.Lawful)
    (h : text.toList.splitOn '-' = [version, trace, half, flags])
    (htrace : Hex.Digits 32 trace) (hhalf : Hex.Digits 16 half) :
    ∃ traceId high, ofTraceParentIn? s text = some (root traceId ⟨high, 0⟩) ∧
      traceId.simpleChars = trace.map Char.toLower ∧
      Hex.padded 16 high.toNat = half.map Char.toLower := by
  have htext : Hex.Digits 32 (String.ofList trace).toList := by rwa [String.toList_ofList]
  obtain ⟨traceId, htraceId, hdigits⟩ := hs.exists_read? htext
  obtain ⟨high, hhigh, hvalue⟩ := exists_spanOfHalf? hs hhalf
  rw [hs.toList_plain, String.toList_ofList] at hdigits
  refine ⟨traceId, high, ?_, hdigits, hhalf.length ▸ (Hex.padded_of_value? hvalue).2⟩
  rw [ofTraceParentIn?_of_parts h, htraceId, hhigh]
  rfl

theorem ofTraceParentIn?_traceParentIn (hs : s.Lawful) (c : Trace) :
    ofTraceParentIn? s (c.traceParentIn s) = some (root c.traceId ⟨c.spanId.high, 0⟩) := by
  have htrace : s.read? (String.ofList c.traceId.simpleChars) = some c.traceId := by
    rw [← hs.toList_plain, String.ofList_toList, hs.inverse]
  have hhalf : Hex.Digits 16 (Hex.padded 16 c.spanId.high.toNat) :=
    ⟨Hex.length_padded .., (Hex.isSome_value?_iff _).mp (Uuid.value?_half c.spanId.high ▸ rfl)⟩
  obtain ⟨high, hspan, hhigh⟩ := exists_spanOfHalf? hs hhalf
  rw [Uuid.value?_half] at hhigh
  obtain rfl : high = c.spanId.high := UInt64.toNat_inj.mp (Option.some.inj hhigh).symm
  rw [ofTraceParentIn?_of_parts (splitOn_traceParentIn hs c), htrace, hspan]
  rfl

/-! ## There and back -/

/-- In a lawful spelling, a trace parent that is written is read as its trace, with the first half
of its span and nothing else. Any text is read exactly if hyphens cut it into four parts, of which
the second has thirty-two digits and the third sixteen. What was read is written with these in lower
case, and so it is read again. -/
theorem traceParent_round_trip {s : Uuid.Spelling} (hs : s.Lawful) :
    (∀ c : Trace, ofTraceParentIn? s (c.traceParentIn s) =
      some ⟨c.traceId, ⟨c.spanId.high, 0⟩, none, none, none⟩) ∧
    ∀ text : String,
      ((ofTraceParentIn? s text).isSome = true ↔ ∃ version trace half flags,
        text.toList.splitOn '-' = [version, trace, half, flags] ∧ Hex.Digits 32 trace ∧
          Hex.Digits 16 half) ∧
      ∀ {version trace half flags : List Char},
        text.toList.splitOn '-' = [version, trace, half, flags] →
        Hex.Digits 32 trace → Hex.Digits 16 half →
        ∃ c : Trace, ofTraceParentIn? s text = some c ∧
          c.traceParentIn s = "00-" ++ String.ofList (trace.map Char.toLower) ++ "-" ++
            String.ofList (half.map Char.toLower) ++ "-01" ∧
          ofTraceParentIn? s (c.traceParentIn s) = some c := by
  refine ⟨ofTraceParentIn?_traceParentIn hs,
    fun text => ⟨isSome_ofTraceParentIn?_iff hs text, fun h htrace hhalf => ?_⟩⟩
  obtain ⟨traceId, high, hread, htraceId, hhigh⟩ := exists_ofTraceParentIn? hs h htrace hhalf
  refine ⟨_, hread, ?_, ofTraceParentIn?_traceParentIn hs _⟩
  apply String.toList_inj.mp
  simp only [toList_traceParentIn hs, root, htraceId, hhigh, String.toList_append,
    String.toList_ofList]
  simp

/-- Digits in either case, with nothing before them and a letter that is no digit behind. -/
theorem mixed_case_round_trip :
    Uuid.spelling.Lawful ∧
      ∃ c : Trace, ofTraceParent? "-0aF7651916CD43dd8448EB211C80319c-B7ad6b7169203331-é" = some c ∧
        c.traceParent = "00-0af7651916cd43dd8448eb211c80319c-b7ad6b7169203331-01" ∧
        ofTraceParent? c.traceParent = some c := by
  let trace := "0aF7651916CD43dd8448EB211C80319c"
  let half := "B7ad6b7169203331"
  have htext : ("-" ++ trace ++ "-" ++ half ++ "-é").toList.splitOn '-' =
      [[], trace.toList, half.toList, ['é']] := by decide
  have htrace : Hex.Digits 32 trace.toList := by decide
  have hhalf : Hex.Digits 16 half.toList := by decide
  have hlower : "00-" ++ String.ofList (trace.toList.map Char.toLower) ++ "-" ++
      String.ofList (half.toList.map Char.toLower) ++ "-01" =
      "00-0af7651916cd43dd8448eb211c80319c-b7ad6b7169203331-01" := by decide
  obtain ⟨c, hread, hwritten, hagain⟩ :=
    ((traceParent_round_trip Uuid.spelling_lawful).2 _).2 htext htrace hhalf
  exact ⟨Uuid.spelling_lawful, c, hread, hwritten.trans hlower, hagain⟩

end Trace

end DynamicUi
