import PriceFormula.Proofs.Expr.Calls
import PriceFormula.Proofs.Formula.OnePass

/-! Calls of `constant` in normal forms. The pass goes over a text once, so the parenthesis that it
writes for one call makes another one of a `constant` that stands right before it. -/

namespace PriceFormula

namespace Normal
open Text Text.Marker

private theorem eq_of_prefix_respelled {a c : Char} {t s : List Char}
    (ha : a ∉ '.' :: ',' :: marker)
    (h : a :: t <+: respelled c ++ s) : c = a ∧ t <+: s := by
  rcases respelled_cases c with rfl | rfl | rfl | ⟨-, hkept⟩
  case inr.inr.inr =>
    rw [hkept, List.singleton_append, List.cons_prefix_cons] at h
    exact ⟨h.1.symm, h.2⟩
  all_goals
    obtain ⟨rfl, -⟩ := List.cons_prefix_cons.mp h
    exact absurd ha (by decide)

private theorem exists_of_prefix_onePass {w t s : List Char}
    (hw : ∀ a ∈ w, a ∉ '(' :: '.' :: ',' :: marker)
    (h : w ++ t <+: onePass s) : ∃ rest, s = w ++ rest ∧ t <+: onePass rest := by
  induction w generalizing s with
  | nil => exact ⟨s, rfl, h⟩
  | cons a w ih =>
    obtain ⟨ha, hlater⟩ := List.forall_mem_cons.mp hw
    rw [List.mem_cons, not_or] at ha
    cases s using onePass_induct with
    | nil => cases List.prefix_nil.mp h
    | call rest =>
      rw [onePass_call, List.cons_append, List.cons_prefix_cons] at h
      exact absurd h.1 ha.1
    | char c rest hcall =>
      rw [onePass_cons hcall, List.cons_append] at h
      obtain ⟨rfl, htail⟩ := eq_of_prefix_respelled ha.2 h
      obtain ⟨behind, rfl, hbehind⟩ := ih hlater htail
      exact ⟨behind, rfl, hbehind⟩

private theorem call_prefix_onePass {s : List Char} :
    constantCall <+: onePass s ↔ constantName ++ constantCall <+: s := by
  constructor
  · intro h
    have hkept : ¬constantCall <+: s := by
      rintro ⟨rest, rfl⟩
      rw [onePass_call] at h
      exact absurd (List.cons_prefix_cons.mp h).1 (by decide)
    have hname : constantName.all (fun a => a ∉ '(' :: '.' :: ',' :: marker) = true := by decide
    obtain ⟨rest, rfl, hopen⟩ := exists_of_prefix_onePass (w := constantName) (t := ['('])
      (fun a ha => of_decide_eq_true (List.all_eq_true.mp hname a ha)) h
    cases rest using onePass_induct with
    | nil => cases List.prefix_nil.mp hopen
    | call rest => exact ⟨rest, List.append_assoc _ _ _⟩
    | char c rest hcall =>
      rw [onePass_cons hcall] at hopen
      obtain ⟨rfl, -⟩ := eq_of_prefix_respelled (by decide) hopen
      exact absurd ⟨rest, rfl⟩ hkept
  · rintro ⟨rest, rfl⟩
    exact ⟨onePass rest, rfl⟩

private theorem call_infix_respelled {c : Char} {s : List Char} :
    constantCall <:+: respelled c ++ s ↔
      constantCall <+: respelled c ++ s ∨ constantCall <:+: s := by
  rcases respelled_cases c with rfl | rfl | rfl | ⟨-, hkept⟩
  case inr.inr.inr => rw [hkept, List.singleton_append, List.infix_cons_iff]
  all_goals simp [respelled, marker, constantCall, List.infix_cons_iff]

private theorem infix_append_call {s : List Char} :
    constantName ++ constantCall <:+: constantCall ++ s ↔ constantName ++ constantCall <:+: s := by
  simp [constantName, constantCall, List.infix_cons_iff]

/-- Calls that the pass leaves behind are those with the name twice. -/
theorem call_infix_onePass (s : List Char) :
    constantCall <:+: onePass s ↔ constantName ++ constantCall <:+: s := by
  induction s using onePass_induct with
  | nil => exact iff_of_false (by decide) (by decide)
  | call rest ih =>
    rw [onePass_call, infix_append_call, ← ih, List.infix_cons_iff]
    exact or_iff_right fun h => absurd (List.cons_prefix_cons.mp h).1 (by decide)
  | char c rest hcall ih =>
    rw [onePass_cons hcall, call_infix_respelled, ih, ← onePass_cons hcall, call_prefix_onePass,
      ← List.infix_cons_iff]

end Normal

/-- A call of `constant` stands in the normal form exactly where the name stood twice before the
parenthesis once entities were decoded and braces dropped. Such a text is refused: no function has
a name that ends so. -/
theorem constantCall_in_normalForm (text : String) :
    let decoded := (Text.decodeEntities (Text.markColons text)).toList
    (Normal.constantCall <:+: (normalForm text).toList ↔
      Normal.constantName ++ Normal.constantCall <:+: decoded.filter fun c => c ≠ '{' ∧ c ≠ '}') ∧
    (Normal.constantCall <:+: (normalForm text).toList →
      ∀ e, Expr.parse (normalForm text) ≠ .ok e) := by
  intro decoded
  refine ⟨?_, fun hcall e he => ?_⟩
  · rw [toList_normalForm]
    exact Normal.call_infix_onePass _
  · have hname : ['o', 'n', 's', 't', 'a', 'n', 't'].all Token.isNamePart = true := by decide
    obtain ⟨f, hf⟩ := Expr.exists_function_of_parse he (a := 'c') (by decide) (by decide)
      (List.all_eq_true.mp hname) (by decide) hcall
    exact absurd hf (by cases f <;> decide)

/-- Braces and an entity stand within the name that is written twice. -/
theorem constantCall_in_normalForm_of_split :
    let text := "1+const{an}tcons&#116;ant(2;3)"
    Normal.constantCall <:+: (normalForm text).toList ∧
      ∀ e, Expr.parse (normalForm text) ≠ .ok e := by
  intro text
  obtain ⟨hiff, hrefused⟩ := constantCall_in_normalForm text
  have hcall : Normal.constantCall <:+: (normalForm text).toList :=
    hiff.mpr ⟨['1', '+'], ['2', ';', '3', ')'], by decide +kernel⟩
  exact ⟨hcall, hrefused hcall⟩

/-- The parenthesis of the call completes the name before it to another call. -/
theorem constantCall_of_doubled_name :
    normalForm "constantconstant(3)" = "constant(3)" ∧
      Normal.constantCall <:+: (normalForm "constantconstant(3)").toList := by
  have hform : normalForm "constantconstant(3)" = "constant(3)" := by
    rw [← String.ofList_toList (s := normalForm _), toList_normalForm]
    decide +kernel
  refine ⟨hform, ?_⟩
  rw [hform]
  exact ⟨[], ['3', ')'], by decide⟩

end PriceFormula
