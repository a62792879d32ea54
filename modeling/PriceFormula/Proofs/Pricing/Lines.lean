import PriceFormula.Proofs.Formula.Bound
import PriceFormula.Proofs.Pricing.Configuration
import PriceFormula.Proofs.Pricing.Selection

/-! The lines of a conditional formula. Only lines of type `condition` and `else` count, in their
order, and lines that are built read back from the text they are stored under. -/

namespace PriceFormula

/-- Whether a line counts as a case: it is an object whose type is `condition` or `else`. -/
def Json.isCase (line : Json) : Bool :=
  match line.member? "type" with
  | some (.string kind) => kind = "condition" || kind = "else"
  | _ => false

namespace Case

/-- The case of a line of known type. -/
theorem ofLine?_of_type {line : Json} {kind : String}
    (h : line.member? "type" = some (.string kind)) :
    ofLine? line = if kind = "condition" ∨ kind = "else" then
      some (.ofTexts (if kind = "else" ∧ (fieldText line "if").toList.all Text.isBlank then "true"
        else fieldText line "if") (fieldText line "then")) else none := by
  rw [ofLine?, h]
  rfl

private theorem isSome_ofLine? (line : Json) : (ofLine? line).isSome = line.isCase := by
  rw [Json.isCase]
  cases h : line.member? "type" with
  | none =>
    rw [ofLine?, h]
    rfl
  | some kind =>
    cases kind with
    | string kind =>
      rw [ofLine?_of_type h]
      split <;> simp_all
    | _ =>
      rw [ofLine?, h]
      rfl

/-- The cases are those of the lines that count, one for each and in their order. -/
theorem map_some_filterMap_ofLine? (lines : List Json) :
    (lines.filterMap ofLine?).map some = (lines.filter Json.isCase).map ofLine? := by
  have hcounts : (Option.isSome ∘ ofLine?) = Json.isCase := funext isSome_ofLine?
  rw [List.map_filterMap_some_eq_filter_map_isSome, List.filter_map, ← hcounts]

private theorem filterMap_ofLine?_congr {lines lines' : List Json}
    (h : lines'.filter Json.isCase = lines.filter Json.isCase) :
    lines'.filterMap ofLine? = lines.filterMap ofLine? := by
  have hsome : (lines'.filterMap ofLine?).map some = (lines.filterMap ofLine?).map some := by
    rw [map_some_filterMap_ofLine?, map_some_filterMap_ofLine?, h]
  exact List.map_injective_iff.mpr (Option.some_injective Case) hsome

end Case

namespace Line
open Json Json.Reader

def case? (line : Line) : Option Case :=
  if line.kind = "condition" then some (.ofTexts line.condition line.result)
  else if line.kind = "else" then
    some (.ofTexts (if line.condition.toList.all Text.isBlank then "true" else line.condition)
      line.result)
  else none

private theorem ofLine?_toJson (line : Line) : Case.ofLine? line.toJson = line.case? := by
  have htype : line.toJson.member? "type" = some (.string line.kind) := rfl
  have hcondition : Case.fieldText line.toJson "if" = line.condition := rfl
  have hresult : Case.fieldText line.toJson "then" = line.result := rfl
  rw [Case.ofLine?_of_type htype, hcondition, hresult, case?]
  by_cases hkind : line.kind = "condition"
  · have helse : line.kind ≠ "else" := fun h => absurd (hkind.symm.trans h) (by decide)
    rw [if_pos (.inl hkind), if_pos hkind, if_neg fun h => helse h.1]
  · rw [if_neg hkind]
    simp only [hkind, false_or]
    split
    · rename_i helse
      simp only [helse, true_and]
    · rfl

/-- A line reads back as it was written, whatever the reading of floats. -/
theorem takes_toJson (line : Line) (reading : FloatReading) (depth : Nat) :
    Takes (valueBy reading true (depth + 1)) line.toJson line.toJson := by
  apply takes_object
  · simp only [List.forall_mem_cons, List.not_mem_nil, false_imp_iff, implies_true, and_true]
    exact ⟨takes_string _ depth, takes_string _ depth, takes_string _ depth⟩
  · have hkeys : ["if", "then", "type"].Pairwise (· < ·) := by decide
    exact List.pairwise_map.mp hkeys

end Line

namespace StoredFormula

private theorem conditional_eq_ofLines (lines : List Line) :
    conditional lines = .ofLines (lines.map Line.toJson) := rfl

private theorem ofTextBy_conditional (reading : Json.FloatReading) (lines : List Line) :
    ofTextBy reading (conditional lines).text = .ok (conditional lines) := by
  apply ofTextBy_text_of_takes
  have hdepth : Json.depthLimit - 1 = Json.depthLimit - 3 + 1 + 1 := rfl
  rw [readPayload, hdepth]
  apply Json.Reader.takes_array
  intro j hj
  obtain ⟨line, -, rfl⟩ := List.mem_map.mp hj
  exact line.takes_toJson reading _

private theorem ofStored_conditional (lines : List Line) :
    Formula.ofStored (conditional lines) = .ok (.conditional (lines.filterMap Line.case?)) := by
  rw [conditional_eq_ofLines, Formula.ofStored_ofLines, List.filterMap_map]
  simp only [Function.comp_def, Line.ofLine?_toJson]

end StoredFormula

namespace Pricing

/-- Only lines of type `condition` and `else` count, in their order. A conditional formula with any
lines has one case for each line that counts. Other entries, wherever they stand and whatever they
hold, change nothing in the formula, its bindings, the reason why it is not ready, or its price. A
formula that is built from lines and the one that is read from its text have the same cases. -/
theorem cases_of_lines (lines : List Json) :
    (∃ cases, Formula.ofStored (.ofLines lines) = .ok (.conditional cases) ∧
      cases.map some = (lines.filter Json.isCase).map Case.ofLine?) ∧
    (∀ lines' : List Json, lines'.filter Json.isCase = lines.filter Json.isCase →
      ∀ s : Supplied,
        BoundFormula.ofStored (.ofLines lines') s = BoundFormula.ofStored (.ofLines lines) s ∧
        (ofStored (.ofLines lines') s).price = (ofStored (.ofLines lines) s).price) ∧
    ∀ (reading : Json.FloatReading) (built : List Line),
      ∃ read cases,
        StoredFormula.ofTextBy reading (StoredFormula.conditional built).text = .ok read ∧
        Formula.ofStored (.conditional built) = .ok (.conditional cases) ∧
        Formula.ofStored read = .ok (.conditional cases) ∧ cases = built.filterMap Line.case? := by
  refine ⟨⟨_, Formula.ofStored_ofLines lines, Case.map_some_filterMap_ofLine? lines⟩,
    fun lines' h s => ?_, fun reading built => ?_⟩
  · have hformula : Formula.ofStored (.ofLines lines') = Formula.ofStored (.ofLines lines) := by
      rw [Formula.ofStored_ofLines, Formula.ofStored_ofLines, Case.filterMap_ofLine?_congr h]
    have hbound : BoundFormula.ofStored (.ofLines lines') s =
        BoundFormula.ofStored (.ofLines lines) s := by
      rw [BoundFormula.ofStored, BoundFormula.ofStored, hformula]
    refine ⟨hbound, ?_⟩
    rw [price, price, ofStored, ofStored, hbound]
  · exact ⟨_, _, StoredFormula.ofTextBy_conditional reading built,
      StoredFormula.ofStored_conditional built, StoredFormula.ofStored_conditional built, rfl⟩

/-- A comment that holds braces, a number and an object without a type among two lines that
count. -/
theorem cases_of_mixed_lines :
    let first := (Line.when "{a} > 1" "{a} * 2").toJson
    let last := (Line.otherwise "10").toJson
    let mixed := [.object [("if", .string "{x} \x7d\x7b"), ("type", .string "comment")], first,
      .integer 42, .object [("then", .string "{y}")], last]
    let s : Supplied := .ofList [("a", Json.integer 3)]
    BoundFormula.ofStored (.ofLines mixed) s = BoundFormula.ofStored (.ofLines [first, last]) s ∧
      (ofStored (.ofLines mixed) s).price = .ok 6 := by
  intro first last mixed s
  obtain ⟨-, hmixed, -⟩ := cases_of_lines [first, last]
  obtain ⟨hbound, hprice⟩ := hmixed mixed rfl s
  refine ⟨hbound, hprice.trans ?_⟩
  decide +kernel

end Pricing
end PriceFormula
