import PriceFormula.Proofs.Json.Loops

namespace PriceFormula.Json

private theorem length_write_le {j : Json} {js : List Json} (h : j ∈ js) :
    (write j).length ≤ (writeItems js).length := by
  cases js with
  | nil => nomatch h
  | cons k js =>
    rw [writeItems_cons, List.length_append]
    rcases List.mem_cons.mp h with rfl | hmem
    · omega
    · have := length_le_flatMap_of_mem ',' write hmem
      omega

private theorem length_write_lt {m : String × Json} {ms : List (String × Json)} (h : m ∈ ms) :
    (write m.2).length < (writeMembers ms).length := by
  have hmember : (write m.2).length < (writtenMember m).length := by
    rw [writtenMember, List.length_append, List.length_cons]
    omega
  cases ms with
  | nil => cases h
  | cons k ms =>
    rw [writeMembers_cons, List.length_append]
    rcases List.mem_cons.mp h with rfl | hmem
    · omega
    · have := length_le_flatMap_of_mem ',' writtenMember hmem
      omega

/-- A property of all values may be proved of an array from its items and of an object from the
values of its members. -/
theorem parts_induction {P : Json → Prop} (null : P null) (bool : ∀ b, P (bool b))
    (integer : ∀ n, P (integer n)) (float : ∀ x, P (float x)) (string : ∀ s, P (string s))
    (array : ∀ js, (∀ j ∈ js, P j) → P (array js))
    (object : ∀ ms, (∀ m ∈ ms, P m.2) → P (object ms)) (j : Json) : P j := by
  induction hlength : (write j).length using Nat.strongRecOn generalizing j with
  | ind n ih =>
    subst hlength
    cases j with
    | null => exact null
    | bool b => exact bool b
    | integer n => exact integer n
    | float x => exact float x
    | string s => exact string s
    | array js =>
      refine array js fun j hj => ih _ ?_ j rfl
      have := length_write_le hj
      rw [write, List.length_cons, List.length_append]
      omega
    | object ms =>
      refine object ms fun m hm => ih _ ?_ m.2 rfl
      have := length_write_lt hm
      rw [write, List.length_cons, List.length_append]
      omega

namespace Reader
variable {reading : FloatReading} {keep : Bool}

theorem valueBy_null (depth : Nat) (rest : List Char) :
    valueBy reading keep depth (write null ++ rest) = .ok (null, rest) := by
  unfold valueBy
  rfl

theorem valueBy_bool (b : Bool) (depth : Nat) (rest : List Char) :
    valueBy reading keep depth (write (bool b) ++ rest) = .ok (bool b, rest) := by
  unfold valueBy
  cases b <;> rfl

theorem valueBy_string (text : String) (depth : Nat) (rest : List Char) :
    valueBy reading keep depth (writtenString text ++ rest) = .ok (.string text, rest) := by
  have htail := stringTail_written keep text rest
  rw [writtenString, List.cons_append, List.append_assoc]
  unfold valueBy
  rw [skipBlank_cons (by decide)]
  simp only
  rw [List.singleton_append, htail]
  rfl

private theorem valueBy_digit {c : Char} (hc : c.isDigit = true) (depth : Nat) (s : List Char) :
    valueBy reading keep depth (c :: s) = numberTail reading keep false (c :: s) := by
  obtain ⟨_, _, htext, hblank, -⟩ := startsItem_of_digit hc s
  obtain ⟨rfl, rfl⟩ := List.cons.inj htext
  unfold valueBy
  rw [skipBlank_cons hblank]
  simp only
  split
  case h_8 => exact if_pos hc
  all_goals exact absurd hc (by decide)

theorem valueBy_signedText {p : NumberParts} (hp : p.WellFormed) (negative : Bool) (depth : Nat)
    {rest : List Char} (hrest : Delimited rest) :
    valueBy reading keep depth (NumberParts.signedText negative p ++ rest) =
      (if keep then numberValue reading negative p.whole p.fraction p.power
        else .ok .null).map (·, rest) := by
  rw [← numberTail_text hrest hp]
  cases negative with
  | true =>
    unfold valueBy
    rfl
  | false =>
    obtain ⟨c, s, htext, hdigit⟩ := hp.exists_text_eq
    rw [NumberParts.signedText, if_neg Bool.false_ne_true, htext]
    exact valueBy_digit hdigit depth _

/-- A number is read as the value at its digit, if that is a number. -/
theorem number_digit {c : Char} (hc : c.isDigit = true) {s rest : List Char} {v : Json} {x : Float}
    (h : valueBy reading true 0 (c :: s) = .ok (v, rest)) (hv : v.number? = some x) :
    number reading (c :: s) = .ok (x, rest) := by
  obtain ⟨_, _, htext, hblank, -⟩ := startsItem_of_digit hc s
  obtain ⟨rfl, rfl⟩ := List.cons.inj htext
  unfold number
  rw [skipBlank_cons hblank]
  split
  case h_1 | h_2 =>
    rename_i heq
    obtain ⟨rfl, -⟩ := List.cons.inj heq
    exact absurd hc (by decide)
  case h_3 =>
    rw [h, ok_bind]
    simp only [hv]

theorem text_written (t : String) (rest : List Char) :
    Reader.text (writtenString t ++ rest) = .ok (t, rest) := by
  have htail := stringTail_written true t rest
  rw [writtenString, List.cons_append, List.append_assoc]
  unfold Reader.text
  rw [skipBlank_cons (by decide)]
  exact htail

theorem valueBy_array (depth : Nat) (s : List Char) :
    valueBy reading keep (depth + 1) ('[' :: s) =
      (arrayTail (valueBy reading keep depth) s).map fun r => (.array r.1, r.2) := by
  rw [valueBy, skipBlank_cons (by decide)]
  simp only
  cases arrayTail (valueBy reading keep depth) s <;> rfl

theorem valueBy_object (depth : Nat) (s : List Char) :
    valueBy reading keep (depth + 1) ('\x7b' :: s) =
      (objectTail keep (valueBy.member keep (valueBy reading keep depth)) [] s).map fun r =>
        (.object r.1, r.2) := by
  rw [valueBy, skipBlank_cons (by decide)]
  simp only
  cases objectTail keep (valueBy.member keep (valueBy reading keep depth)) [] s <;> rfl

private theorem feeds_skipped {depth : Nat} {ms : List (String × Json)}
    (h : ∀ m ∈ ms, ∃ x, Takes (valueBy reading false depth) m.2 x) :
    Feeds (valueBy.member false (valueBy reading false depth)) [] ms [] := by
  induction ms with
  | nil => exact .nil []
  | cons m ms ih =>
    obtain ⟨x, hx⟩ := h m List.mem_cons_self
    refine .cons rfl (fun rest hrest => ?_) (ih fun k hk => h k (List.mem_cons_of_mem m hk))
    rw [hx rest hrest]
    rfl

/-- A skipped value may be any written one, if the depth is not below its length. -/
theorem takes_skipped (j : Json) {depth : Nat} (hdepth : (write j).length ≤ depth) :
    ∃ x, Takes (valueBy reading false depth) j x := by
  induction j using parts_induction generalizing depth with
  | null => exact ⟨_, fun rest _ => valueBy_null depth rest⟩
  | bool b => exact ⟨_, fun rest _ => valueBy_bool b depth rest⟩
  | integer n =>
    refine ⟨.null, fun rest hrest => ?_⟩
    rw [write, writtenInteger_eq]
    exact valueBy_signedText (wellFormed_wholeParts _) _ _ hrest
  | float x =>
    refine ⟨.null, fun rest hrest => ?_⟩
    rw [write]
    by_cases hx : x.isFinite = true
    · obtain ⟨negative, p, hp, htext⟩ := exists_writtenFloat hx
      rw [htext]
      exact valueBy_signedText hp negative _ hrest
    · rw [writtenFloat, if_neg hx]
      exact valueBy_null depth rest
  | string text =>
    refine ⟨.string text, fun rest _ => ?_⟩
    rw [write]
    exact valueBy_string text _ rest
  | array js ih =>
    rw [write, List.length_cons, List.length_append] at hdepth
    obtain ⟨depth, rfl⟩ : ∃ n, depth = n + 1 := ⟨depth - 1, by omega⟩
    have hitems : ∀ j ∈ js, ∃ x, Takes (valueBy reading false depth) j x := fun j hj =>
      ih j hj (by
        have := length_write_le hj
        omega)
    -- what the items are read as does not matter here, so any choice of them will do
    have : Nonempty Json := ⟨.null⟩
    choose! f hf using hitems
    refine ⟨.array (js.map f), fun rest _ => ?_⟩
    rw [write, List.cons_append, List.append_assoc, List.singleton_append, valueBy_array,
      arrayTail_written hf]
    rfl
  | object ms ih =>
    rw [write, List.length_cons, List.length_append] at hdepth
    obtain ⟨depth, rfl⟩ : ∃ n, depth = n + 1 := ⟨depth - 1, by omega⟩
    have hmembers : ∀ m ∈ ms, ∃ x, Takes (valueBy reading false depth) m.2 x := fun m hm =>
      ih m hm (by
        have := length_write_lt hm
        omega)
    refine ⟨.object [], fun rest _ => ?_⟩
    rw [write, List.cons_append, List.append_assoc, List.singleton_append, valueBy_object,
      objectTail_written (feeds_skipped hmembers)]
    rfl

end Reader
end PriceFormula.Json
