import PriceFormula.Pricing.Basic
import PriceFormula.Proofs.Except
import PriceFormula.Proofs.Expr.Variables
import PriceFormula.Proofs.Number.Sign

namespace PriceFormula

/-- What a formula text gives under bindings: its value, or the first error of parsing or evaluating
it. -/
def FormulaText.outcome (t : FormulaText) (b : Bindings) : Except ExprError Value :=
  Expr.parse t.normal >>= Expr.eval b

namespace FormulaText

theorem outcome_congr {t u : FormulaText} (h : t.normal = u.normal) (b : Bindings) :
    t.outcome b = u.outcome b := by
  rw [outcome, outcome, h]

/-- The price of a text: the error of its outcome, or its numeric view held against the policy. -/
theorem price_eq (t : FormulaText) (b : Bindings) :
    t.price b = match t.outcome b with
      | .error e => .error (.failed e)
      | .ok v => asPrice v.toNumber := by
  unfold price value
  rw [← outcome]
  cases t.outcome b <;> rfl

end FormulaText

/-- Parsing knows nothing of bindings. -/
theorem Expr.parse_ne_unbound (text x : String) : parse text ≠ .error (.unboundVariable x) := by
  intro h
  rcases parse_eq_error h with ⟨_, _, h⟩ | ⟨_, _, h⟩ | ⟨_, _, _, h⟩
  all_goals cases h

private theorem FormulaText.outcome_ne_unbound {t : FormulaText} {b : Bindings}
    (h : ∀ e, Expr.parse t.normal = .ok e → ∀ x ∈ e.vars, b.contains x = true) (x : String) :
    t.outcome b ≠ .error (.unboundVariable x) := by
  intro herror
  rcases bind_eq_error.mp herror with hparse | ⟨e, hparse, heval⟩
  · exact Expr.parse_ne_unbound _ _ hparse
  · obtain ⟨hx, hnone⟩ := Expr.eval_eq_unbound heval
    have hbound := h e hparse x hx
    rw [Bindings.contains_eq_isSome_get?, hnone] at hbound
    nomatch hbound

/-- The price policy refuses a number for what the number is. -/
theorem asPrice_eq_error {v : Float} {e : NoPrice} (h : asPrice v = .error e) :
    e = .notFinite v ∨ e = .negative v ∨ e = .zero := by
  rw [asPrice] at h
  split at h
  · exact .inl (Except.error.inj h).symm
  · split at h
    · exact .inr (.inl (Except.error.inj h).symm)
    · split at h
      · exact .inr (.inr (Except.error.inj h).symm)
      · cases h

theorem FormulaText.price_ne_unbound {t : FormulaText} {b : Bindings}
    (h : ∀ e, Expr.parse t.normal = .ok e → ∀ x ∈ e.vars, b.contains x = true) (x : String) :
    t.price b ≠ .error (.failed (.unboundVariable x)) := by
  intro hprice
  rw [price_eq] at hprice
  split at hprice
  · rename_i err herr
    obtain rfl := NoPrice.failed.inj (Except.error.inj hprice)
    exact outcome_ne_unbound h x herr
  · rcases asPrice_eq_error hprice with h | h | h <;> cases h

open Float.Model UnpackedFloat in
/-- The price policy lets through what is finite and above zero, unchanged. -/
theorem asPrice_eq_ok_iff {v w : Float} :
    asPrice v = .ok w ↔ w = v ∧ v.isFinite = true ∧ 0 < v := by
  rw [Number.finite_positive_iff]
  rw [asPrice]
  simp only [Number.isFinite_eq, Number.lt_iff, Number.beq_zero, Number.parts_zero]
  cases Number.parts v with
  | notANumber => simp [UnpackedFloat.isFinite]
  | infinity s => simp [UnpackedFloat.isFinite]
  | zero s => simp [UnpackedFloat.isFinite, UnpackedFloat.lt, UnpackedFloat.beq,
      UnpackedFloat.compare]
  | finite s m e hm =>
    cases s with
    | positive =>
      simp [UnpackedFloat.isFinite, UnpackedFloat.lt, UnpackedFloat.beq, UnpackedFloat.compare, hm,
        eq_comm]
    | negative => simp [UnpackedFloat.isFinite, UnpackedFloat.lt, UnpackedFloat.compare]

private theorem FormulaText.price_positive {t : FormulaText} {b : Bindings} {v : Float}
    (h : t.price b = .ok v) : v.isFinite = true ∧ 0 < v := by
  obtain ⟨value, -, hv⟩ := bind_eq_ok.mp h
  obtain ⟨rfl, hpositive⟩ := asPrice_eq_ok_iff.mp hv
  exact hpositive

private theorem Case.firstPrice_positive {b : Bindings} {cases : List Case} {v : Float}
    (h : firstPrice b cases = .ok v) : v.isFinite = true ∧ 0 < v := by
  induction cases with
  | nil => nomatch h
  | cons c rest ih =>
    obtain ⟨condition, -, hrest⟩ := bind_eq_ok.mp h
    split at hrest
    · exact FormulaText.price_positive hrest
    · exact ih hrest

/-- Every price is finite and above zero, in both modes. -/
theorem Pricing.price_positive {p : Pricing} {v : Float} (h : p.price = .ok v) :
    v.isFinite = true ∧ 0 < v := by
  rw [price] at h
  split at h
  · rw [BoundFormula.price] at h
    split at h
    · exact FormulaText.price_positive h
    · exact Case.firstPrice_positive h
  · nomatch h

private theorem FormulaText.value_ne_unready (t : FormulaText) (b : Bindings) (r : Option Unready) :
    t.value b ≠ .error (.unready r) := by
  have hvalue : t.value b = (t.outcome b).mapError .failed := rfl
  rw [hvalue]
  cases t.outcome b <;> nofun

private theorem FormulaText.price_ne_unready (t : FormulaText) (b : Bindings) (r : Option Unready) :
    t.price b ≠ .error (.unready r) := by
  intro h
  rcases bind_eq_error.mp h with hvalue | ⟨v, -, hprice⟩
  · exact t.value_ne_unready b r hvalue
  · rcases asPrice_eq_error hprice with h | h | h <;> cases h

private theorem Case.firstPrice_ne_unready (b : Bindings) (cases : List Case) (r : Option Unready) :
    firstPrice b cases ≠ .error (.unready r) := by
  induction cases with
  | nil => nofun
  | cons c rest ih =>
    intro h
    rcases bind_eq_error.mp h with hvalue | ⟨v, -, hprice⟩
    · exact c.condition.value_ne_unready b r hvalue
    · split at hprice
      · exact c.result.price_ne_unready b r hprice
      · exact ih hprice

/-- A formula whose references are bound may fail, but never for want of readiness. -/
theorem BoundFormula.price_ne_unready (f : BoundFormula) (r : Option Unready) :
    f.price ≠ .error (.unready r) := by
  rw [price]
  cases f.formula with
  | single expression => exact expression.price_ne_unready _ r
  | conditional cases => exact Case.firstPrice_ne_unready _ cases r

/-- A price is missing for want of readiness exactly if the check of the formula said so, and then
for the reason it gave. -/
theorem Pricing.price_eq_unready_iff {p : Pricing} {r : Option Unready} :
    p.price = .error (.unready r) ↔ ∃ e, p.bound = .error e ∧ r = some e := by
  rw [price]
  cases p.bound with
  | error e => simp [eq_comm]
  | ok f => simp [f.price_ne_unready r]

end PriceFormula
