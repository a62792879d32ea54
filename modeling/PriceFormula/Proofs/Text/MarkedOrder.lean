import Mathlib.Data.String.Basic
import PriceFormula.Proofs.Text.Marking

/-! The order of texts and that of their marked forms. A colon stands before letters, the underscore
of its marker behind capital ones, so marking can turn two texts around. -/

namespace PriceFormula.Text.Marker
variable {u v : List Char}

/-- Where the two texts differ first, the first one has a colon and the second one a greater
character, and yet the second one comes first once colons are marked. -/
def Overtaken (u v : List Char) : Prop :=
  ∃ w u' d v', u = w ++ ':' :: u' ∧ v = w ++ d :: v' ∧ ':' < d ∧ mark (d :: v') < mark (':' :: u')

theorem Overtaken.lt (h : Overtaken u v) : u < v := by
  obtain ⟨w, u', d, v', rfl, rfl, hd, -⟩ := h
  exact List.append_left_lt (List.cons_lt_cons_iff.mpr (.inl hd))

theorem Overtaken.mark_lt (h : Overtaken u v) : mark v < mark u := by
  obtain ⟨w, u', d, v', rfl, rfl, -, hmark⟩ := h
  rw [mark_append, mark_append]
  exact List.append_left_lt hmark

private theorem Overtaken.cons (c : Char) (h : Overtaken u v) : Overtaken (c :: u) (c :: v) := by
  obtain ⟨w, u', d, v', rfl, rfl, hd⟩ := h
  exact ⟨c :: w, u', d, v', rfl, rfl, hd⟩

private theorem mark_cons_lt_mark_cons {c : Char} (h : mark (c :: u) < mark (c :: v)) :
    mark u < mark v := by
  by_cases hc : c = ':'
  · subst hc
    simpa [mark_colon, marker, List.cons_lt_cons_iff] using h
  · simpa [mark_cons_of_ne hc, List.cons_lt_cons_iff] using h

private theorem overtaken_of_mark_lt (h : mark u < mark v) (hnot : ¬u < v) : Overtaken v u := by
  induction u generalizing v with
  | nil =>
    cases v with
    | nil => exact absurd h (List.lt_irrefl _)
    | cons e v => exact absurd (List.nil_lt_cons e v) hnot
  | cons c u ih =>
    cases v with
    | nil => exact absurd h (List.not_lt_nil _)
    | cons e v =>
      rw [List.cons_lt_cons_iff, not_or] at hnot
      obtain ⟨hchar, hrest⟩ := hnot
      rcases (not_lt.mp hchar).eq_or_lt with rfl | hless
      · exact (ih (mark_cons_lt_mark_cons h) fun hlt => hrest ⟨rfl, hlt⟩).cons e
      · by_cases he : e = ':'
        · subst he
          exact ⟨[], v, c, u, rfl, rfl, hless, h⟩
        · -- what stands for `c` is greater than `e`, so the marked forms are in the other order
          refine absurd h (List.lt_asymm ?_)
          rw [mark_cons_of_ne he]
          by_cases hc : c = ':'
          · subst hc
            exact List.cons_lt_cons_iff.mpr (.inl (hless.trans (by decide)))
          · rw [mark_cons_of_ne hc]
            exact List.cons_lt_cons_iff.mpr (.inl hless)

theorem lt_iff_of_mark_lt (h : mark u < mark v) : u < v ↔ ¬Overtaken v u := by
  constructor
  · intro hlt hover
    exact lt_asymm hlt hover.lt
  · intro hnot
    by_contra hlt
    exact hnot (overtaken_of_mark_lt h hlt)

/-- Characters outside the range from `;` to `_` never overtake a colon. -/
theorem not_overtaken (h : ':' ∈ u → ∀ c ∈ v, c ≤ ':' ∨ '_' < c) : ¬Overtaken u v := by
  rintro ⟨w, u', d, v', rfl, rfl, hd, hmark⟩
  have hgreater : '_' < d := (h (by simp) d (by simp)).resolve_left (not_le.mpr hd)
  rw [mark_cons_of_ne hd.ne'] at hmark
  exact List.lt_asymm hmark (List.cons_lt_cons_iff.mpr (.inl hgreater))

end PriceFormula.Text.Marker
