import Mathlib.Data.List.Infix
import PriceFormula.Proofs.Text.Rewriting

/-! Names that come back from their marked form. Unmarking takes every marker for a colon, also one
that the name held itself, and one that starts in the name and ends in the marker of a colon. -/

namespace PriceFormula.Text

namespace Marker

/-- The marker, and those of its beginnings that the marker of a colon completes too early. -/
def clashes : List (List Char) := [marker, ['_', '_', 'p', ':'], ['_', '_', 'p', '_', ':']]

/-- A name without clashes. -/
def Faithful (s : List Char) : Prop := ∀ clash ∈ clashes, ¬clash <:+: s

instance (s : List Char) : Decidable (Faithful s) :=
  inferInstanceAs (Decidable (∀ clash ∈ clashes, ¬clash <:+: s))

private theorem faithful_cons {c : Char} {s : List Char} :
    Faithful (c :: s) ↔ (∀ clash ∈ clashes, ¬clash <+: c :: s) ∧ Faithful s := by
  simp only [Faithful, List.infix_cons_iff, not_or, forall_and]

theorem mark_colon (s : List Char) : mark (':' :: s) = marker ++ mark s := mark_cons ':' s

theorem mark_cons_of_ne {c : Char} (hc : c ≠ ':') (s : List Char) :
    mark (c :: s) = c :: mark s := by
  rw [mark_cons, if_neg hc, List.singleton_append]

private theorem cons_prefix_mark {d : Char} {p s : List Char} (h : d :: p <+: mark s) :
    (∃ t, s = d :: t ∧ p <+: mark t) ∨ ∃ t, s = ':' :: t ∧ d :: p <+: marker ++ mark t := by
  cases s with
  | nil => exact absurd (List.prefix_nil.mp h) (List.cons_ne_nil d p)
  | cons c s =>
    by_cases hc : c = ':'
    · subst hc
      rw [mark_colon] at h
      exact .inr ⟨s, rfl, h⟩
    · rw [mark_cons_of_ne hc, List.cons_prefix_cons] at h
      obtain ⟨rfl, hp⟩ := h
      exact .inl ⟨s, rfl, hp⟩

private theorem exists_clash_of_marker {c : Char} {s : List Char} (h : marker <+: c :: mark s) :
    ∃ clash ∈ clashes, clash <+: c :: s := by
  obtain ⟨rfl, hsecond⟩ := List.cons_prefix_cons.mp h
  obtain ⟨s, rfl, hletter⟩ | ⟨t, -, hcolon⟩ := cons_prefix_mark hsecond
  · obtain ⟨s, rfl, hfourth⟩ | ⟨t, -, hcolon⟩ := cons_prefix_mark hletter
    · obtain ⟨s, rfl, hlast⟩ | ⟨t, rfl, -⟩ := cons_prefix_mark hfourth
      · obtain ⟨t, rfl, -⟩ | ⟨t, rfl, -⟩ := cons_prefix_mark hlast
        · exact ⟨marker, by decide, t, rfl⟩
        · exact ⟨['_', '_', 'p', '_', ':'], by decide, t, rfl⟩
      · exact ⟨['_', '_', 'p', ':'], by decide, t, rfl⟩
    · exact absurd hcolon (by simp [marker])
  · exact absurd hcolon (by simp [marker])

private theorem marker_prefix_of_clash {c : Char} {clash s : List Char} (hclash : clash ∈ clashes)
    (h : clash <+: c :: s) : marker <+: c :: mark s := by
  have hmark (w t : List Char) (hw : w ++ t = s) : c :: mark s = c :: (mark w ++ mark t) := by
    rw [← hw, mark_append]
  obtain ⟨t, ht⟩ := h
  simp only [clashes, List.mem_cons, List.not_mem_nil, or_false] at hclash
  rcases hclash with rfl | rfl | rfl
  · obtain ⟨rfl, rfl⟩ := List.cons.inj ht
    exact ⟨mark t, (hmark ['_', 'p', '_', '_'] t rfl).symm⟩
  · obtain ⟨rfl, rfl⟩ := List.cons.inj ht
    exact ⟨'p' :: '_' :: '_' :: mark t, (hmark ['_', 'p', ':'] t rfl).symm⟩
  · obtain ⟨rfl, rfl⟩ := List.cons.inj ht
    exact ⟨'_' :: 'p' :: '_' :: '_' :: mark t, (hmark ['_', 'p', '_', ':'] t rfl).symm⟩

/-- A name comes back from its marked form exactly if it has no clash. -/
theorem unmark_mark_iff (s : List Char) : unmark (mark s) = s ↔ Faithful s := by
  induction s with
  | nil => exact iff_of_true rfl (by decide)
  | cons c s ih =>
    rw [faithful_cons]
    by_cases hc : c = ':'
    · subst hc
      have hnone : ∀ clash ∈ clashes, ¬clash <+: ':' :: s := by simp [clashes, marker]
      have hunmark : unmark (marker ++ mark s) = ':' :: unmark (mark s) :=
        replace_of_prefix (List.prefix_append marker (mark s))
      rw [mark_colon, hunmark, List.cons_inj_right, ih, and_iff_right hnone]
    · rw [mark_cons_of_ne hc]
      -- a marker at a character that is no colon turns it into one, so nothing comes back
      by_cases hprefix : marker <+: c :: mark s
      · obtain ⟨clash, hclash, h⟩ := exists_clash_of_marker hprefix
        refine iff_of_false ?_ fun hfaithful => hfaithful.1 clash hclash h
        rw [unmark, replace_of_prefix hprefix]
        exact fun heq => hc (List.cons.inj heq).1.symm
      · have hnone : ∀ clash ∈ clashes, ¬clash <+: c :: s := fun clash hclash h =>
          hprefix (marker_prefix_of_clash hclash h)
        rw [unmark, replace_of_not_prefix hprefix, ← unmark, List.cons_inj_right, ih,
          and_iff_right hnone]

end Marker

private theorem unmarkColons_markColons_iff (name : String) :
    unmarkColons (markColons name) = name ↔ Marker.Faithful name.toList := by
  rw [unmarkColons, markColons, String.toList_ofList, ← Marker.unmark_mark_iff,
    ← String.toList_inj, String.toList_ofList]

/-- Marking and unmarking are inverse where they can be. A name comes back from its marked form
exactly if it holds neither `__p__` nor `__p:` nor `__p_:`, so two different names of this kind
never have the same key. A text without colons always comes back from its unmarked form. -/
theorem marking_round_trip :
    (∀ name : String, unmarkColons (markColons name) = name ↔
      ¬"__p__".toList <:+: name.toList ∧ ¬"__p:".toList <:+: name.toList ∧
        ¬"__p_:".toList <:+: name.toList) ∧
    (∀ name other : String, Marker.Faithful name.toList → Marker.Faithful other.toList →
      name ≠ other → markColons name ≠ markColons other) ∧
    ∀ s : String, ':' ∉ s.toList → markColons (unmarkColons s) = s := by
  refine ⟨fun name => ?_, fun name other hname hother hne heq => hne ?_,
    fun s => markColons_unmarkColons⟩
  · rw [unmarkColons_markColons_iff]
    simp [Marker.Faithful, Marker.clashes, Marker.marker]
  · rw [← (unmarkColons_markColons_iff name).mpr hname, heq,
      (unmarkColons_markColons_iff other).mpr hother]

/-- A name may overlap the marker of its colon as long as the marker is not complete too early. -/
theorem marking_of_overlaps :
    unmarkColons (markColons "_:p__") = "_:p__" ∧ unmarkColons (markColons "__p_:") ≠ "__p_:" ∧
      markColons "a:_p_b" ≠ markColons "a:_:p_b" ∧
      markColons (unmarkColons "___p__p__") = "___p__p__" := by
  obtain ⟨hiff, hkeys, hmarked⟩ := marking_round_trip
  refine ⟨(hiff _).mpr (by decide), fun h => ((hiff _).mp h).2.2 (by decide), ?_, ?_⟩
  · exact hkeys _ _ (by decide) (by decide) (by decide)
  · exact hmarked _ (by decide)

end PriceFormula.Text
