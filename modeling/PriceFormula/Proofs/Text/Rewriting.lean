import PriceFormula.Text.Entity
import PriceFormula.Text.Marker

namespace PriceFormula.Text

/-- What is found in a text was recognised at the head of one of its suffixes. -/
theorem Segment.find_of_found_mem_cut {α : Type} {find : Finder α} {s text : List Char} {item : α}
    (h : found item text ∈ cut find s) :
    ∃ c rest more, c :: rest <:+ s ∧ find c rest = some (item, more) := by
  suffices hfrom : ∀ skip, found item text ∈ cutFrom find skip s →
      ∃ c rest more, c :: rest <:+ s ∧ find c rest = some (item, more) from hfrom 0 h
  clear h
  induction s with
  | nil =>
    intro skip h
    cases skip <;> cases h
  | cons c rest ih =>
    have later {skip : Nat} (h : found item text ∈ cutFrom find skip rest) :
        ∃ d rest' more, d :: rest' <:+ c :: rest ∧ find d rest' = some (item, more) := by
      obtain ⟨d, rest', more, hsuffix, hfind⟩ := ih skip h
      exact ⟨d, rest', more, hsuffix.trans (List.suffix_cons c rest), hfind⟩
    intro skip h
    cases skip with
    | succ n => exact later h
    | zero =>
      rw [cutFrom] at h
      split at h
      · rename_i item' more hfind
        rcases List.mem_cons.mp h with hhead | h
        · obtain ⟨rfl, -⟩ := found.inj hhead
          exact ⟨c, rest, more, List.suffix_rfl, hfind⟩
        · exact later h
      · rcases List.mem_cons.mp h with hhead | h
        · cases hhead
        · exact later h

section Replace
variable {pattern replacement : List Char}

@[simp] theorem replace_nil : replace pattern replacement [] = [] := rfl

theorem replace_of_prefix {c : Char} {rest : List Char} (h : pattern <+: c :: rest) :
    replace pattern replacement (c :: rest) =
      replacement ++ replace pattern replacement (rest.drop (pattern.length - 1)) := by
  have hfind : replace.occurrence pattern c rest = some ((), pattern.length - 1) := by
    rw [replace.occurrence, if_pos (List.isPrefixOf_iff_prefix.mpr h)]
  rw [replace, Segment.cut_of_found hfind]
  rfl

theorem replace_of_not_prefix {c : Char} {rest : List Char} (h : ¬pattern <+: c :: rest) :
    replace pattern replacement (c :: rest) = c :: replace pattern replacement rest := by
  have hfind : replace.occurrence pattern c rest = none := by
    rw [replace.occurrence, if_neg (mt List.isPrefixOf_iff_prefix.mp h)]
  rw [replace, Segment.cut_of_none hfind]
  rfl

/-- Replacement brings in only characters of the replacement. -/
theorem mem_of_mem_replace {c : Char} {s : List Char} (h : c ∈ replace pattern replacement s) :
    c ∈ s ∨ c ∈ replacement := by
  rw [replace, List.mem_flatMap] at h
  obtain ⟨segment, hsegment, hc⟩ := h
  cases segment with
  | found item text => exact .inr hc
  | plain d =>
    refine .inl ?_
    rw [← Segment.flatMap_chars_cut (replace.occurrence pattern) s, List.mem_flatMap]
    exact ⟨_, hsegment, hc⟩

end Replace

namespace Marker

@[simp] theorem mark_append (s t : List Char) : mark (s ++ t) = mark s ++ mark t :=
  List.flatMap_append

theorem mark_cons (c : Char) (s : List Char) :
    mark (c :: s) = (if c = ':' then marker else [c]) ++ mark s :=
  List.flatMap_cons

theorem mark_eq_self {s : List Char} (h : ':' ∉ s) : mark s = s := by
  induction s with
  | nil => rfl
  | cons c s ih =>
    rw [List.mem_cons, not_or] at h
    rw [mark_cons, if_neg (Ne.symm h.1), ih h.2]
    rfl

/-- No colon is left. -/
theorem colon_not_mem_mark (s : List Char) : ':' ∉ mark s := by
  induction s with
  | nil => exact List.not_mem_nil
  | cons c s ih =>
    rw [mark_cons, List.mem_append, not_or]
    refine ⟨?_, ih⟩
    split
    · decide
    · rename_i hc
      exact fun h => hc (List.mem_singleton.mp h).symm

/-- In a text without colons, marking undoes unmarking: every colon that unmarking brings in stood
as a marker, even where markers could overlap. -/
theorem mark_unmark {s : List Char} (h : ':' ∉ s) : mark (unmark s) = s := by
  induction hlen : s.length using Nat.strongRecOn generalizing s with
  | ind n ih =>
    subst hlen
    cases s with
    | nil => rfl
    | cons c rest =>
      by_cases hprefix : marker <+: c :: rest
      · obtain ⟨tail, htail⟩ := hprefix
        have hdrop : rest.drop (marker.length - 1) = tail := by
          rw [← List.drop_succ_cons, ← htail]
          rfl
        have hshort : tail.length < (c :: rest).length := by
          rw [← htail, List.length_append]
          exact Nat.lt_add_of_pos_left (by decide)
        have htail' : ':' ∉ tail := fun hc => h (by rw [← htail]; exact List.mem_append_right _ hc)
        rw [unmark, replace_of_prefix ⟨tail, htail⟩, hdrop, ← unmark, mark_append,
          ih _ hshort htail' rfl, ← htail]
        rfl
      · rw [List.mem_cons, not_or] at h
        rw [unmark, replace_of_not_prefix hprefix, ← unmark, mark_cons, if_neg (Ne.symm h.1),
          ih _ (Nat.lt_succ_self _) h.2 rfl]
        rfl

end Marker

theorem markColons_unmarkColons {s : String} (h : ':' ∉ s.toList) :
    markColons (unmarkColons s) = s := by
  rw [markColons, unmarkColons, String.toList_ofList, Marker.mark_unmark h, String.ofList_toList]

/-- A text without ampersand has no entities. -/
theorem Entity.decode_eq_self {s : List Char} (h : '&' ∉ s) : decode s = s := by
  induction s with
  | nil => rfl
  | cons c s ih =>
    rw [List.mem_cons, not_or] at h
    have hfind : find c s = none := by
      unfold find
      split
      · exact absurd rfl h.1
      · rfl
    rw [decode, Segment.cut_of_none hfind, List.map_cons, ← decode, ih h.2]

end PriceFormula.Text
