import PriceFormula.Proofs.Bindings
import PriceFormula.Proofs.Formula.Bound
import PriceFormula.Proofs.Pricing.Outcome

/-! The names that a formula mentions: as a reference in braces, or as an identifier of a text in
normal form. What is bound to any other name has no influence on the outcome. -/

namespace PriceFormula

namespace FormulaText
variable {t : FormulaText} {b b' : Bindings}

/-- Evaluation asks for identifiers of the text only. -/
theorem value_congr
    (h : ∀ x, .identifier x ∈ Token.scan t.normal.toList → b.get? x = b'.get? x) :
    t.value b = t.value b' := by
  rw [value, value]
  cases hparse : Expr.parse t.normal with
  | error err => rfl
  | ok e =>
    have heval : e.eval b = e.eval b' :=
      Expr.eval_congr fun x hx => h x (Expr.standsAlone_of_parse hparse hx).mem
    rw [ok_bind, ok_bind, heval]

theorem price_congr
    (h : ∀ x, .identifier x ∈ Token.scan t.normal.toList → b.get? x = b'.get? x) :
    t.price b = t.price b' := by
  rw [price, price, value_congr h]

end FormulaText

namespace Formula

/-- The name is a reference of the formula or an identifier of one of its texts in normal form. -/
def Mentions (f : Formula) (x : String) : Prop :=
  x ∈ f.references ∨ ∃ t ∈ f.texts, .identifier x ∈ Token.scan t.normal.toList

instance (f : Formula) (x : String) : Decidable (f.Mentions x) :=
  inferInstanceAs (Decidable (_ ∨ _))

end Formula

private theorem Case.firstPrice_congr {cases : List Case} {b b' : Bindings}
    (h : ∀ c ∈ cases, ∀ t ∈ [c.condition, c.result], ∀ x,
      .identifier x ∈ Token.scan t.normal.toList → b.get? x = b'.get? x) :
    firstPrice b cases = firstPrice b' cases := by
  induction cases with
  | nil => rfl
  | cons c rest ih =>
    have hc := h c List.mem_cons_self
    have hcondition := FormulaText.value_congr (hc c.condition (by simp))
    have hresult := FormulaText.price_congr (hc c.result (by simp))
    rw [firstPrice, firstPrice, hcondition, hresult, ih fun d hd => h d (List.mem_cons_of_mem c hd)]

private theorem BoundFormula.price_congr {f : Formula} {b b' : Bindings}
    (h : ∀ x, f.Mentions x → b.get? x = b'.get? x) :
    BoundFormula.price ⟨f, b⟩ = BoundFormula.price ⟨f, b'⟩ := by
  have htexts : ∀ t ∈ f.texts, ∀ x, .identifier x ∈ Token.scan t.normal.toList →
      b.get? x = b'.get? x := fun t ht x hx => h x (.inr ⟨t, ht, hx⟩)
  cases f with
  | single expression => exact FormulaText.price_congr (htexts expression List.mem_cons_self)
  | conditional cases =>
    exact Case.firstPrice_congr fun c hc t ht => htexts t (List.mem_flatMap_of_mem hc ht)

namespace Pricing
variable {f : StoredFormula} {s s' : Supplied}

/-- Supplied values that bind the mentioned names alike have the same outcome. -/
theorem outcome_congr (h : ∀ formula, Formula.ofStored f = .ok formula → ∀ x, formula.Mentions x →
      (Bindings.ofSupplied s).get? x = (Bindings.ofSupplied s').get? x) :
    (ofStored f s).unready? = (ofStored f s').unready? ∧
      (ofStored f s).price = (ofStored f s').price := by
  cases hformula : Formula.ofStored f with
  | error e =>
    have hbound (s : Supplied) : (ofStored f s).bound = .error e := by
      rw [ofStored, BoundFormula.ofStored, hformula, error_bind]
    rw [unready?, unready?, price, price, hbound s, hbound s']
    exact ⟨rfl, rfl⟩
  | ok formula =>
    have hmentioned := h formula hformula
    have hunbound := formula.unbound_congr fun x hx => hmentioned x (.inl hx)
    have hbound (s : Supplied) : (ofStored f s).bound = _ := BoundFormula.ofStored_eq hformula s
    rw [unready?, unready?, price, price, hbound s, hbound s', hunbound]
    by_cases hall : formula.unbound (.ofSupplied s') = []
    · rw [if_pos hall, if_pos hall]
      exact ⟨rfl, BoundFormula.price_congr hmentioned⟩
    · rw [if_neg hall, if_neg hall]
      exact ⟨rfl, rfl⟩

/-- Only mentioned names matter. Supplied values that bind every mentioned name to the same number,
or both do not bind it, give a formula the same outcome: the reason why it is not ready, and its
price or the reason why there is none. So do supplied values that differ in entries only whose
names are not mentioned. -/
theorem same_of_mentioned (f : StoredFormula) (s s' : Supplied) :
    ((∀ formula, Formula.ofStored f = .ok formula → ∀ x, formula.Mentions x →
        (Bindings.ofSupplied s).get? x = (Bindings.ofSupplied s').get? x) →
      (ofStored f s).unready? = (ofStored f s').unready? ∧
      (ofStored f s).price = (ofStored f s').price) ∧
    ((∀ formula, Formula.ofStored f = .ok formula →
        ∀ name, formula.Mentions (Text.markColons name) → s[name]? = s'[name]?) →
      (ofStored f s).unready? = (ofStored f s').unready? ∧
      (ofStored f s).price = (ofStored f s').price) := by
  refine ⟨outcome_congr, fun h => outcome_congr fun formula hformula x hx => ?_⟩
  refine Bindings.get?_ofSupplied_congr fun name hname => h formula hformula name ?_
  rw [hname]
  exact hx

/-- Neither another spelling of a name nor entries of other names make a difference. -/
theorem same_of_respelled_and_unmentioned :
    let f := StoredFormula.single "{a:b} * 2"
    let s : Supplied := .ofList [("a:b", Json.integer 5)]
    let spelled : Supplied := .ofList [("a__p__b", Json.integer 5), ("c", Json.string "x")]
    let more := (s.insert "c" (.integer 7)).insert "d" .null
    (ofStored f s).price = .ok 10 ∧ (ofStored f spelled).price = .ok 10 ∧
      (ofStored f more).price = .ok 10 := by
  intro f s spelled more
  have hprice : (ofStored f s).price = .ok 10 := by decide +kernel
  have hspelled := (same_of_mentioned f s spelled).1 fun _ _ x _ =>
    congrArg (Bindings.get? · x) (rfl : Bindings.ofSupplied s = Bindings.ofSupplied spelled)
  have hmore := (same_of_mentioned f s more).2 fun formula hformula name hname => by
    obtain rfl := Except.ok.inj hformula
    have hc : name ≠ "c" := by rintro rfl; exact absurd hname (by decide +kernel)
    have hd : name ≠ "d" := by rintro rfl; exact absurd hname (by decide +kernel)
    simp [more, Std.TreeMap.getElem?_insert, hc.symm, hd.symm]
  exact ⟨hprice, hspelled.2 ▸ hprice, hmore.2 ▸ hprice⟩

end Pricing
end PriceFormula
