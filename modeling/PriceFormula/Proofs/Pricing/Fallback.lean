import PriceFormula.Proofs.Pricing.Lines
import PriceFormula.Proofs.Pricing.Missing

/-! The fallback of a conditional formula: an `else` line without a condition. It always applies, so
the search never gets past it. -/

namespace PriceFormula

/-- A line of type `else` whose condition is missing, is neither text nor number, or is blank. -/
structure Json.IsFallback (line : Json) : Prop where
  type_eq : line.member? "type" = some (.string "else")
  no_number : ∀ j, line.member? "if" = some j → j.numeral? = none
  blank : ∀ s, line.member? "if" = some (.string s) → ∀ c ∈ s.toList, Text.isBlank c = true

namespace Case

private theorem fieldText_blank {line : Json} (h : line.IsFallback) :
    (fieldText line "if").toList.all Text.isBlank = true := by
  unfold fieldText
  split
  · rename_i s hs
    exact List.all_eq_true.mpr (h.blank s hs)
  · rename_i j _ hj
    rw [h.no_number j hj]
    rfl
  · rfl

private theorem ofLine?_of_fallback {line : Json} (h : line.IsFallback) :
    ofLine? line = some (.ofTexts "true" (fieldText line "then")) := by
  rw [ofLine?_of_type h.type_eq, if_pos (.inr rfl), if_pos ⟨rfl, fieldText_blank h⟩]

theorem outcome_true (b : Bindings) :
    (FormulaText.ofStored "true").outcome b = .ok (.boolean true) := by
  have hparse : Expr.parse (FormulaText.ofStored "true").normal = .ok (.boolean true) := by cbv
  rw [FormulaText.outcome, hparse]
  rfl

theorem settles_of_true (result : String) (b : Bindings) :
    (Case.ofTexts "true" result).settles b = true := by
  rw [settles, ofTexts, outcome_true]
  rfl

private theorem settledPrice_ne_noCase (b : Bindings) (c : Case) :
    c.settledPrice b ≠ .error .noCase := by
  intro h
  rw [settledPrice] at h
  split at h
  · cases h
  · rw [FormulaText.price_eq] at h
    split at h
    · cases h
    · rcases asPrice_eq_error h with h | h | h <;> cases h

section Search
variable {b : Bindings} {c : Case} (hc : c.settles b = true)
include hc

/-- The search does not get past a case that settles it. -/
theorem firstPrice_append (before after : List Case) :
    firstPrice b (before ++ c :: after) = firstPrice b (before ++ [c]) := by
  induction before with
  | nil =>
    rw [List.nil_append, List.nil_append, firstPrice_cons, firstPrice_cons, if_pos hc, if_pos hc]
  | cons d before ih =>
    rw [List.cons_append, List.cons_append, firstPrice_cons, firstPrice_cons, ih]

private theorem firstPrice_ne_noCase (before after : List Case) :
    firstPrice b (before ++ c :: after) ≠ .error .noCase := by
  induction before with
  | nil =>
    rw [List.nil_append, firstPrice_cons, if_pos hc]
    exact settledPrice_ne_noCase b c
  | cons d before ih =>
    rw [List.cons_append, firstPrice_cons]
    split
    · exact settledPrice_ne_noCase b d
    · exact ih

/-- Where no case before it settles the search, a case that does so gives the price. -/
theorem firstPrice_append_of_none {before : List Case} (h : ∀ d ∈ before, d.settles b = false)
    (after : List Case) : firstPrice b (before ++ c :: after) = c.settledPrice b := by
  induction before with
  | nil => rw [List.nil_append, firstPrice_cons, if_pos hc]
  | cons d before ih =>
    obtain ⟨hd, hbefore⟩ := List.forall_mem_cons.mp h
    rw [List.cons_append, firstPrice_cons, hd, if_neg Bool.false_ne_true, ih hbefore]

end Search

end Case

namespace Pricing

/-- A blank `else` line is a true fallback. A ready formula with such a line never ends without a
case that applies. The lines behind it have no influence on the price, as long as the formula stays
ready. Where no case before it settles the search, the price is that of its result. -/
theorem price_of_fallback {line : Json} (hline : line.IsFallback) (before after : List Json)
    {s : Supplied} (hready : (ofStored (.ofLines (before ++ line :: after)) s).isReady = true) :
    let p := ofStored (.ofLines (before ++ line :: after)) s
    p.price ≠ .error .noCase ∧
    (∀ after' : List Json, (ofStored (.ofLines (before ++ line :: after')) s).isReady = true →
      (ofStored (.ofLines (before ++ line :: after')) s).price = p.price) ∧
    ((∀ c ∈ before.filterMap Case.ofLine?, c.settles (.ofSupplied s) = false) →
      p.price = (FormulaText.ofStored (Case.fieldText line "then")).price (.ofSupplied s)) := by
  intro p
  let fallback := Case.ofTexts "true" (Case.fieldText line "then")
  let skipped := before.filterMap Case.ofLine?
  have hsettles : fallback.settles (.ofSupplied s) = true := Case.settles_of_true _ _
  have hprice (after : List Json)
      (hready : (ofStored (.ofLines (before ++ line :: after)) s).isReady = true) :
      (ofStored (.ofLines (before ++ line :: after)) s).price =
        Case.firstPrice (.ofSupplied s) (skipped ++ fallback :: after.filterMap Case.ofLine?) := by
    have hcases : (before ++ line :: after).filterMap Case.ofLine? =
        skipped ++ fallback :: after.filterMap Case.ofLine? := by
      rw [List.filterMap_append, List.filterMap_cons_some (Case.ofLine?_of_fallback hline)]
    rw [price_of_isReady (Formula.ofStored_ofLines _) hready, hcases]
    rfl
  refine ⟨?_, fun after' hready' => ?_, fun hskipped => ?_⟩
  · rw [hprice after hready]
    exact Case.firstPrice_ne_noCase hsettles _ _
  · rw [hprice after' hready', hprice after hready]
    exact (Case.firstPrice_append hsettles _ _).trans (Case.firstPrice_append hsettles _ _).symm
  · rw [hprice after hready, Case.firstPrice_append_of_none hsettles hskipped, Case.settledPrice]
    simp only [fallback, Case.ofTexts, Case.outcome_true]

/-- A fallback whose condition is a list, behind a condition that is a number. -/
theorem price_of_list_fallback :
    let skipped := Json.object [("if", .integer 1), ("then", .string ")"),
      ("type", .string "condition")]
    let fallback := Json.object [("if", .array []), ("then", .string "{a} * 2"),
      ("type", .string "else")]
    let more := Json.object [("if", .string "("), ("type", .string "condition")]
    let s : Supplied := .ofList [("a", Json.integer 3)]
    fallback.IsFallback ∧ (ofStored (.ofLines [skipped, fallback]) s).price = .ok 6 ∧
      (ofStored (.ofLines [skipped, fallback, more]) s).price = .ok 6 := by
  intro skipped fallback more s
  have hfallback : fallback.IsFallback := by
    refine ⟨rfl, ?_, ?_⟩
    · intro j hj
      obtain rfl := Option.some.inj hj
      rfl
    · intro t ht
      cases ht
  have hready : (ofStored (.ofLines [skipped, fallback]) s).isReady = true := by decide +kernel
  have hready' : (ofStored (.ofLines [skipped, fallback, more]) s).isReady = true := by
    decide +kernel
  obtain ⟨-, hbehind, hresult⟩ := price_of_fallback hfallback [skipped] [] hready
  have hprice : (ofStored (.ofLines [skipped, fallback]) s).price = .ok 6 := by
    refine (hresult ?_).trans ?_
    · decide +kernel
    · decide +kernel
  exact ⟨hfallback, hprice, (hbehind [more] hready').trans hprice⟩

end Pricing
end PriceFormula
