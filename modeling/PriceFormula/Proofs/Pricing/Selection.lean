import PriceFormula.Proofs.Pricing.Outcome

/-! Which case of a conditional formula gives the price. Conditions are tried in order up to the
first that settles the search, by failing or by being true; nothing else is looked at. -/

namespace PriceFormula

namespace Case

/-- Whether the condition of a case ends the search: it fails, or it is the truth value true. -/
def settles (b : Bindings) (c : Case) : Bool :=
  match c.condition.outcome b with
  | .error _ => true
  | .ok v => v.isTrue

def settledPrice (b : Bindings) (c : Case) : Except NoPrice Float :=
  match c.condition.outcome b with
  | .error e => .error (.failed e)
  | .ok _ => c.result.price b

/-- One turn of the search. -/
theorem firstPrice_cons (b : Bindings) (c : Case) (rest : List Case) :
    firstPrice b (c :: rest) = if c.settles b then c.settledPrice b else firstPrice b rest := by
  rw [firstPrice, FormulaText.value, ← FormulaText.outcome, settles, settledPrice]
  cases c.condition.outcome b <;> rfl

private theorem firstPrice_of_none (b : Bindings) (cases : List Case)
    (h : ∀ c ∈ cases, c.settles b = false) : firstPrice b cases = .error .noCase := by
  induction cases with
  | nil => rfl
  | cons c rest ih =>
    rw [firstPrice_cons, h c List.mem_cons_self]
    exact ih fun d hd => h d (List.mem_cons_of_mem c hd)

/-- The search ends at the first case that settles it. -/
theorem firstPrice_of_first (b : Bindings) {cases : List Case} {j : Nat} {c : Case}
    (hj : cases[j]? = some c) (hc : c.settles b = true)
    (hbefore : ∀ i < j, ∀ d, cases[i]? = some d → d.settles b = false) :
    firstPrice b cases = c.settledPrice b := by
  induction cases generalizing j with
  | nil => nomatch hj
  | cons d rest ih =>
    rw [firstPrice_cons]
    cases j with
    | zero =>
      obtain rfl := Option.some.inj hj
      rw [hc, if_pos rfl]
    | succ j =>
      rw [hbefore 0 (Nat.succ_pos j) d rfl]
      exact ih hj fun i hi => hbefore (i + 1) (Nat.succ_lt_succ hi)

private theorem settles_congr {c d : Case} (h : c.condition.normal = d.condition.normal)
    (b : Bindings) :
    c.settles b = d.settles b := by
  rw [settles, settles, FormulaText.outcome_congr h]

private theorem settledPrice_congr {c d : Case} (h : c.condition.normal = d.condition.normal)
    (h' : c.result.normal = d.result.normal) (b : Bindings) :
    c.settledPrice b = d.settledPrice b := by
  rw [settledPrice, settledPrice, FormulaText.outcome_congr h, FormulaText.price_eq,
    FormulaText.price_eq, FormulaText.outcome_congr h']

end Case

/-- The first case whose condition fails or is true decides the price of a conditional formula:
its condition's error, or its result's error or price. Where there is none, no case applies. Any
other formula that shares the conditions up to that case and its result has the same price,
whatever the skipped results and everything behind that case may hold. -/
theorem Pricing.price_of_first_settled (p : Pricing) (cases : List Case) (b : Bindings)
    (hp : p.bound = .ok ⟨.conditional cases, b⟩) :
    ((∀ c ∈ cases, c.settles b = false) → p.price = .error .noCase) ∧
    ∀ (j : Nat) (c : Case), cases[j]? = some c → c.settles b = true →
      (∀ i < j, ∀ d, cases[i]? = some d → d.settles b = false) →
      (∀ e, c.condition.outcome b = .error e → p.price = .error (.failed e)) ∧
      (c.condition.outcome b = .ok (.boolean true) →
        p.price = match c.result.outcome b with
          | .error e => .error (.failed e)
          | .ok v => asPrice v.toNumber) ∧
      ∀ (q : Pricing) (cases' : List Case), q.bound = .ok ⟨.conditional cases', b⟩ →
        (∀ i ≤ j, (cases'[i]?.map fun d => d.condition.normal) =
          cases[i]?.map fun d => d.condition.normal) →
        ((cases'[j]?.map fun d => d.result.normal) = cases[j]?.map fun d => d.result.normal) →
        q.price = p.price := by
  have price_eq {r : Pricing} {ds : List Case} (hr : r.bound = .ok ⟨.conditional ds, b⟩) :
      r.price = Case.firstPrice b ds := by
    rw [Pricing.price, hr]
    rfl
  rw [price_eq hp]
  refine ⟨Case.firstPrice_of_none b cases, fun j c hj hc hbefore => ?_⟩
  have hfirst := Case.firstPrice_of_first b hj hc hbefore
  refine ⟨fun e he => ?_, fun htrue => ?_, fun q cases' hq hconditions hresult => ?_⟩
  · rw [hfirst, Case.settledPrice, he]
  · rw [hfirst, Case.settledPrice, htrue]
    exact FormulaText.price_eq c.result b
  · have hcondition := hconditions j (Nat.le_refl j)
    rw [hj] at hcondition hresult
    obtain ⟨c', hj', hc'⟩ := Option.map_eq_some_iff.mp hcondition
    rw [hj'] at hresult
    rw [price_eq hq, hfirst, ← Case.settledPrice_congr hc' (Option.some.inj hresult) b]
    refine Case.firstPrice_of_first b hj' (by rw [Case.settles_congr hc', hc]) fun i hi d hd => ?_
    have hsame := hconditions i (Nat.le_of_lt hi)
    rw [hd] at hsame
    obtain ⟨d', hd', he⟩ := Option.map_eq_some_iff.mp hsame.symm
    rw [← Case.settles_congr he]
    exact hbefore i hi d' hd'

def Case.ofTexts (condition result : String) : Case := ⟨.ofStored condition, .ofStored result⟩

/-- The second case decides both formulas: what does not parse in the first result and behind the
second case has no influence. -/
theorem Pricing.price_of_second_case :
    let p := Pricing.ofStored
      (.conditional [.when "1" "bad (", .when "1 < 2" "2 + 3", .when ")" "("]) ∅
    let q := Pricing.ofStored (.conditional [.when "1" "7", .when "1 < 2" "2 + 3"]) ∅
    p.price = .ok 5 ∧ q.price = p.price := by
  intro p q
  let c := Case.ofTexts "1 < 2" "2 + 3"
  have hp : p.bound = .ok
      ⟨.conditional [.ofTexts "1" "bad (", c, .ofTexts ")" "("], .empty⟩ := by rfl
  have hq : q.bound = .ok ⟨.conditional [.ofTexts "1" "7", c], .empty⟩ := by rfl
  obtain ⟨-, hcase⟩ := price_of_first_settled p _ _ hp
  obtain ⟨-, htrue, hsame⟩ := hcase 1 c rfl (by decide +kernel) fun i hi d hd => by
    obtain rfl : i = 0 := by omega
    obtain rfl := Option.some.inj hd
    decide +kernel
  refine ⟨?_, hsame q _ hq (fun i hi => ?_) rfl⟩
  · rw [htrue (by decide +kernel)]
    decide +kernel
  · obtain rfl | rfl : i = 0 ∨ i = 1 := by omega
    · rfl
    · rfl

end PriceFormula
