import PriceFormula.Proofs.Formula.Encoding

/-! References of a conditional formula. Its fields are searched as one text without separators, so
a brace that one field leaves open can be closed by a later field. -/

namespace PriceFormula

namespace Reference
open Text

/-- The characters behind the first opening brace that a text does not close. -/
def opened? : List Char → Option (List Char)
  | [] => none
  | c :: rest => if c = '{' ∧ '}' ∉ rest then some rest else opened? rest

def unclosed (s : List Char) : List Char :=
  match opened? s with
  | some w => '{' :: w
  | none => []

/-- The names in texts that are searched in turn, each behind what the texts before it left open. -/
def occurrencesFrom (pending : List Char) : List (List Char) → List (List Char)
  | [] => []
  | s :: rest => occurrences (pending ++ s) ++ occurrencesFrom (unclosed (pending ++ s)) rest

def spanning? (s behind : List Char) : Option (List Char) :=
  (opened? s).bind fun w => (find '{' (w ++ behind)).map Prod.fst

/-- None of the texts begins a reference that the texts behind it complete. -/
def KeepApart : List (List Char) → Prop
  | [] => True
  | s :: rest => spanning? s rest.flatten = none ∧ KeepApart rest

instance decidableKeepApart : (fields : List (List Char)) → Decidable (KeepApart fields)
  | [] => isTrue trivial
  | s :: rest =>
    have := decidableKeepApart rest
    inferInstanceAs (Decidable (spanning? s rest.flatten = none ∧ KeepApart rest))

private theorem keepApart_of_closed {fields : List (List Char)}
    (h : ∀ s ∈ fields, opened? s = none) :
    KeepApart fields := by
  induction fields with
  | nil => trivial
  | cons s rest ih =>
    obtain ⟨hs, hrest⟩ := List.forall_mem_cons.mp h
    refine ⟨?_, ih hrest⟩
    rw [spanning?, hs, Option.bind_none]

private theorem opened?_cons_eq_none {c : Char} {s : List Char} :
    opened? (c :: s) = none ↔ (c = '{' → '}' ∈ s) ∧ opened? s = none := by
  rw [opened?]
  split
  · rename_i h
    simp [h.1, h.2]
  · rename_i h
    rw [not_and, not_not] at h
    exact (and_iff_right h).symm

private theorem opened?_close (s tail : List Char) : opened? (s ++ '}' :: tail) = opened? tail := by
  induction s with
  | nil => exact if_neg fun h => absurd h.1 (by decide)
  | cons c s ih =>
    rw [List.cons_append, opened?, if_neg fun h => h.2 (by simp), ih]

/-- The part of a text before the brace that it leaves open closes all its braces. -/
theorem opened?_eq_some {s w : List Char} (h : opened? s = some w) :
    ∃ before, s = before ++ '{' :: w ∧ '}' ∉ w ∧ opened? before = none := by
  induction s with
  | nil => cases h
  | cons c s ih =>
    rw [opened?] at h
    split at h
    · rename_i hc
      obtain rfl := Option.some.inj h
      exact ⟨[], by rw [hc.1, List.nil_append], hc.2, rfl⟩
    · rename_i hc
      obtain ⟨before, rfl, hw, hbefore⟩ := ih h
      refine ⟨c :: before, rfl, hw, opened?_cons_eq_none.mpr ⟨fun hopen => ?_, hbefore⟩⟩
      have hclose : '}' ∈ before ++ '{' :: w := by
        by_contra hnone
        exact hc ⟨hopen, hnone⟩
      simpa [hw] using hclose

private theorem cut_braced {name : List Char} (hne : name ≠ []) (hname : '}' ∉ name) (rest :
    List Char) :
    Segment.cut find ('{' :: (name ++ '}' :: rest)) =
      .found name ('{' :: (name ++ ['}'])) :: Segment.cut find rest := by
  have htake : (name ++ '}' :: rest).take (name.length + 1) = name ++ ['}'] := by
    rw [List.take_append, List.take_of_length_le (Nat.le_succ _), Nat.add_sub_cancel_left]
    rfl
  rw [Segment.cut_of_found (find_braced hne hname rest), htake, drop_braced]

private theorem find_append_eq_none {c : Char} {rest : List Char} (h : find c rest = none)
    (hclose : c = '{' → '}' ∈ rest) (behind : List Char) : find c (rest ++ behind) = none := by
  by_cases hc : c = '{'
  · subst hc
    obtain ⟨name, tail, rfl, hname⟩ := List.eq_append_cons_of_mem (hclose rfl)
    cases name with
    | nil => rfl
    | cons a name =>
      rw [find_braced (List.cons_ne_nil a name) hname] at h
      cases h
  · exact find_of_ne hc _

private theorem find_eq_none_of_not_mem {c : Char} {rest : List Char} (h : '}' ∉ rest) :
    find c rest = none := by
  cases hfind : find c rest with
  | none => rfl
  | some hit =>
    obtain ⟨-, -, -, -, tail, rfl⟩ := find_eq_some hfind
    exact absurd (List.mem_append_right _ List.mem_cons_self) h

private theorem cut_of_not_mem {s : List Char} (h : '}' ∉ s) :
    Segment.cut find s = s.map .plain := by
  induction s with
  | nil => rfl
  | cons c s ih =>
    have hs : '}' ∉ s := fun hmem => h (List.mem_cons_of_mem c hmem)
    rw [Segment.cut_of_none (find_eq_none_of_not_mem hs), ih hs, List.map_cons]

private theorem cut_append_of_closed {s : List Char} (h : opened? s = none) (behind : List Char) :
    Segment.cut find (s ++ behind) = Segment.cut find s ++ Segment.cut find behind := by
  induction s using Segment.induct find with
  | nil => rfl
  | found c rest name more hfind ih =>
    obtain ⟨rfl, hne, hname, rfl, tail, rfl⟩ := find_eq_some hfind
    rw [drop_braced] at ih
    have htail : opened? tail = none := by
      rw [← opened?_close ('{' :: name) tail]
      exact h
    rw [List.cons_append, List.append_assoc, List.cons_append, cut_braced hne hname,
      cut_braced hne hname, ih htail, List.cons_append]
  | plain c rest hfind ih =>
    obtain ⟨hclose, hrest⟩ := opened?_cons_eq_none.mp h
    rw [List.cons_append, Segment.cut_of_none (find_append_eq_none hfind hclose behind),
      Segment.cut_of_none hfind, ih hrest, List.cons_append]

private theorem cut_append_of_opened {s w : List Char} (h : opened? s = some w) :
    ∃ before, Segment.cut find s = before ++ .plain '{' :: w.map .plain ∧
      ∀ behind, Segment.cut find (s ++ behind) =
        before ++ Segment.cut find ('{' :: (w ++ behind)) := by
  obtain ⟨before, rfl, hw, hbefore⟩ := opened?_eq_some h
  refine ⟨Segment.cut find before, ?_, fun behind => ?_⟩
  · rw [cut_append_of_closed hbefore, Segment.cut_of_none (find_eq_none_of_not_mem hw),
      cut_of_not_mem hw]
  · rw [List.append_assoc, List.cons_append, cut_append_of_closed hbefore]

private theorem occurrences_of_not_mem {s : List Char} (h : '}' ∉ s) : occurrences s = [] := by
  rw [occurrences, cut_of_not_mem h, List.filterMap_map]
  exact List.filterMap_eq_nil_iff.mpr fun _ _ => rfl

private theorem close_not_mem_unclosed (s : List Char) : '}' ∉ unclosed s := by
  rw [unclosed]
  split
  · rename_i w hs
    obtain ⟨-, -, hw, -⟩ := opened?_eq_some hs
    simp [hw]
  · exact List.not_mem_nil

private theorem occurrences_append_of_closed {s : List Char} (h : opened? s = none)
    (behind : List Char) :
    occurrences (s ++ behind) = occurrences s ++ occurrences behind := by
  rw [occurrences, cut_append_of_closed h, List.filterMap_append]
  rfl

/-- A text is searched to the end before the text behind it, except that what it leaves open is
searched again with that text. -/
theorem occurrences_append_eq (s behind : List Char) :
    occurrences (s ++ behind) = occurrences s ++ occurrences (unclosed s ++ behind) := by
  rw [unclosed]
  cases hs : opened? s with
  | none => exact occurrences_append_of_closed hs behind
  | some w =>
    obtain ⟨before, rfl, hw, hbefore⟩ := opened?_eq_some hs
    have hopen : occurrences ('{' :: w) = [] := occurrences_of_not_mem (by simp [hw])
    rw [List.append_assoc, occurrences_append_of_closed hbefore,
      occurrences_append_of_closed hbefore, hopen, List.append_nil]

private theorem occurrences_flatten_eq {pending : List Char} (h : '}' ∉ pending)
    (fields : List (List Char)) :
    occurrences (pending ++ fields.flatten) = occurrencesFrom pending fields := by
  induction fields generalizing pending with
  | nil =>
    rw [List.flatten_nil, List.append_nil]
    exact occurrences_of_not_mem h
  | cons s rest ih =>
    rw [List.flatten_cons, ← List.append_assoc, occurrences_append_eq,
      ih (close_not_mem_unclosed _), occurrencesFrom]

private theorem cut_append {s behind : List Char} (h : spanning? s behind = none) :
    Segment.cut find (s ++ behind) = Segment.cut find s ++ Segment.cut find behind := by
  cases hs : opened? s with
  | none => exact cut_append_of_closed hs behind
  | some w =>
    have hfind : find '{' (w ++ behind) = none := by
      rw [spanning?, hs, Option.bind_some, Option.map_eq_none_iff] at h
      exact h
    obtain ⟨-, -, hw, -⟩ := opened?_eq_some hs
    obtain ⟨before, hcut, hjoined⟩ := cut_append_of_opened hs
    have hplain : Segment.cut find (w ++ behind) = w.map .plain ++ Segment.cut find behind := by
      by_cases hclose : '}' ∈ behind
      · -- only the pair of braces without a name stays unfound
        obtain ⟨name, tail, rfl, hname⟩ := List.eq_append_cons_of_mem hclose
        cases w with
        | nil => rfl
        | cons a w =>
          have hne : a :: w ++ name ≠ [] := List.cons_ne_nil a (w ++ name)
          rw [← List.append_assoc, find_braced hne (List.not_mem_append hw hname)] at hfind
          cases hfind
      · have hnone : '}' ∉ w ++ behind := by simp [hw, hclose]
        rw [cut_of_not_mem hnone, cut_of_not_mem hclose, List.map_append]
    rw [hjoined, hcut, Segment.cut_of_none hfind, hplain, List.append_assoc, List.cons_append]

private theorem cut_append_ne {s behind name : List Char} (h : spanning? s behind = some name)
    (segments : List (Segment (List Char))) :
    Segment.cut find (s ++ behind) ≠ Segment.cut find s ++ segments := by
  obtain ⟨w, hs, hname⟩ := Option.bind_eq_some_iff.mp h
  obtain ⟨hit, hfind, -⟩ := Option.map_eq_some_iff.mp hname
  obtain ⟨before, hcut, hjoined⟩ := cut_append_of_opened hs
  rw [hjoined, hcut, Segment.cut_of_found hfind, List.append_assoc, List.cons_append]
  intro heq
  cases (List.cons.inj (List.append_cancel_left heq)).1

/-- Joined texts are searched one by one exactly if they keep apart. -/
theorem cut_flatten_iff (fields : List (List Char)) :
    Segment.cut find fields.flatten = fields.flatMap (Segment.cut find) ↔ KeepApart fields := by
  -- a field that spans into the text behind it is the first place where the cuts differ
  induction fields with
  | nil => exact iff_of_true rfl trivial
  | cons s rest ih =>
    rw [List.flatten_cons, List.flatMap_cons, KeepApart]
    cases hspanning : spanning? s rest.flatten with
    | none => rw [cut_append hspanning, List.append_cancel_left_eq, ih, and_iff_right rfl]
    | some name => exact iff_of_false (cut_append_ne hspanning _) fun h => nomatch h.1

private theorem occurrences_flatten {fields : List (List Char)} (h : KeepApart fields) :
    occurrences fields.flatten = fields.flatMap occurrences := by
  rw [occurrences, (cut_flatten_iff fields).mpr h, List.filterMap_flatMap]
  rfl

end Reference

namespace Formula

/-- No reference of the formula spans two of its fields. -/
def FieldsApart (f : Formula) : Prop := Reference.KeepApart (f.texts.map fun t => t.source.toList)

instance (f : Formula) : Decidable f.FieldsApart :=
  inferInstanceAs (Decidable (Reference.KeepApart _))

private theorem toList_searchedText_eq_flatten (f : Formula) :
    f.searchedText.toList = (f.texts.map fun t => t.source.toList).flatten := by
  rw [toList_searchedText, List.flatMap_def]

private theorem mem_texts_conditional {cases : List Case} {t : FormulaText} :
    t ∈ (conditional cases).texts ↔ ∃ c ∈ cases, t = c.condition ∨ t = c.result := by
  simp only [texts, List.mem_flatMap, List.mem_cons, List.not_mem_nil, or_false]

private theorem mem_references_of_apart {f : Formula} (h : f.FieldsApart) {x : String} :
    x ∈ f.references ↔ ∃ t ∈ f.texts, x ∈ Reference.namesIn t.source := by
  rw [references, Reference.mem_namesIn, toList_searchedText_eq_flatten,
    Reference.occurrences_flatten h, List.flatMap_map]
  simp only [Reference.mem_namesIn, List.mem_flatMap]
  constructor
  · rintro ⟨name, ⟨t, ht, hname⟩, rfl⟩
    exact ⟨t, ht, name, hname, rfl⟩
  · rintro ⟨t, ht, name, hname, rfl⟩
    exact ⟨name, ⟨t, ht, hname⟩, rfl⟩

private theorem mem_references_conditional {cases : List Case} (h : (conditional cases).FieldsApart)
    {x : String} : x ∈ (conditional cases).references ↔
      ∃ c ∈ cases, x ∈ Reference.namesIn c.condition.source ∨
        x ∈ Reference.namesIn c.result.source := by
  rw [mem_references_of_apart h]
  constructor
  · rintro ⟨t, ht, hx⟩
    obtain ⟨c, hc, rfl | rfl⟩ := mem_texts_conditional.mp ht
    · exact ⟨c, hc, .inl hx⟩
    · exact ⟨c, hc, .inr hx⟩
  · rintro ⟨c, hc, hx | hx⟩
    · exact ⟨_, mem_texts_conditional.mpr ⟨c, hc, .inl rfl⟩, hx⟩
    · exact ⟨_, mem_texts_conditional.mpr ⟨c, hc, .inr rfl⟩, hx⟩

private theorem fieldsApart_of_closed {f : Formula}
    (h : ∀ t ∈ f.texts, Reference.opened? t.source.toList = none) : f.FieldsApart := by
  refine Reference.keepApart_of_closed fun s hs => ?_
  obtain ⟨t, ht, rfl⟩ := List.mem_map.mp hs
  exact h t ht

/-- The references of a conditional formula are collected from its fields in turn, the condition of
each case before its result, and each field is searched behind what the fields before it left open.
What is found is what the fields have one by one exactly if no field opens a brace that only a later
field closes, with a name between them. Then the references are those of the conditions and of the
results, and the order of the cases does not matter as long as their fields keep apart. They do so
in every order if each field closes its own braces. -/
theorem references_of_fields (lines : List Json) :
    let cases := lines.filterMap Case.ofLine?
    let formula := conditional cases
    ofStored (.ofLines lines) = .ok formula ∧
    (∀ x, x ∈ formula.references ↔ ∃ name ∈ Reference.occurrencesFrom []
        (formula.texts.map fun t => t.source.toList), x = String.ofList name) ∧
    (Text.Segment.cut Reference.find formula.searchedText.toList =
        formula.texts.flatMap (fun t => Text.Segment.cut Reference.find t.source.toList) ↔
      formula.FieldsApart) ∧
    (formula.FieldsApart → ∀ x, x ∈ formula.references ↔
      ∃ c ∈ cases, x ∈ Reference.namesIn c.condition.source ∨
        x ∈ Reference.namesIn c.result.source) ∧
    ∀ lines' : List Json, (lines'.filterMap Case.ofLine?).Perm cases →
      let reordered := conditional (lines'.filterMap Case.ofLine?)
      ((∀ t ∈ formula.texts, Reference.opened? t.source.toList = none) → reordered.FieldsApart) ∧
      (formula.FieldsApart → reordered.FieldsApart →
        ∀ x, x ∈ reordered.references ↔ x ∈ formula.references) := by
  intro cases formula
  refine ⟨ofStored_ofLines lines, fun x => ?_, ?_,
    fun hapart x => mem_references_conditional hapart, fun lines' hperm => ⟨fun hclosed => ?_, ?_⟩⟩
  · rw [references, Reference.mem_namesIn, toList_searchedText_eq_flatten,
      ← Reference.occurrences_flatten_eq List.not_mem_nil, List.nil_append]
  · rw [toList_searchedText_eq_flatten, FieldsApart, ← Reference.cut_flatten_iff, List.flatMap_map]
  · refine fieldsApart_of_closed fun t ht => hclosed t ?_
    obtain ⟨c, hc, htext⟩ := mem_texts_conditional.mp ht
    exact mem_texts_conditional.mpr ⟨c, hperm.mem_iff.mp hc, htext⟩
  · intro hapart hreordered x
    rw [mem_references_conditional hapart, mem_references_conditional hreordered]
    simp only [hperm.mem_iff]

/-- Braces in disorder that keep apart: a pair without a name spans two fields, and the last brace
stays open. -/
theorem references_of_stray_braces :
    let lines := [Line.when "\x7d{a}\x7b" "\x7db{c:d}", .otherwise "\x7b{e}\x7b"].map Line.toJson
    let formula := conditional (lines.filterMap Case.ofLine?)
    formula.FieldsApart ∧ ∀ x, x ∈ formula.references ↔ ∃ c ∈ lines.filterMap Case.ofLine?,
      x ∈ Reference.namesIn c.condition.source ∨ x ∈ Reference.namesIn c.result.source := by
  intro lines formula
  have hapart : formula.FieldsApart := by decide +kernel
  obtain ⟨-, -, -, hreferences, -⟩ := references_of_fields lines
  exact ⟨hapart, hreferences hapart⟩

/-- A brace that one condition leaves open is closed in the next one. The formula refers to a name
that none of its fields refers to, and does not refer to it with its cases in the other order. -/
theorem references_across_fields :
    let f := StoredFormula.conditional [.when "\x7ba" "1", .when "c\x7d" "1"]
    let reordered := StoredFormula.conditional [.when "c\x7d" "1", .when "\x7ba" "1"]
    ∃ cases, ofStored f = .ok (conditional cases) ∧
      ofStored reordered = .ok (conditional cases.reverse) ∧
      "a1c" ∈ (conditional cases).references ∧
      (¬∃ c ∈ cases, "a1c" ∈ Reference.namesIn c.condition.source ∨
        "a1c" ∈ Reference.namesIn c.result.source) ∧
      "a1c" ∉ (conditional cases.reverse).references := by
  refine ⟨_, ofStored_ofLines _, ofStored_ofLines _, ?_, ?_, ?_⟩
  · decide +kernel
  · decide +kernel
  · decide +kernel

end Formula
end PriceFormula
