import PriceFormula.Proofs.Expr.Writing

namespace PriceFormula

def Decimal.ofText? (s : List Char) : Option Decimal :=
  let negative := decide (s.head? = some '-')
  let numeral := if negative then s.tail else s
  match Numeral.scan numeral with
  | some (d, n) => if n = numeral.length then some { d with negative } else none
  | none => none

namespace Json.NumberParts

private theorem head?_signedText {p : NumberParts} (hp : p.WellFormed) (negative : Bool) :
    (signedText negative p).head? = some '-' ↔ negative = true := by
  obtain ⟨c, s, htext, hdigit⟩ := hp.exists_text_eq
  cases negative with
  | true => simp [signedText]
  | false =>
    rw [signedText, if_neg Bool.false_ne_true, htext, List.head?_cons]
    refine iff_of_false (fun h => ?_) Bool.false_ne_true
    obtain rfl := Option.some.inj h
    exact absurd hdigit (by decide)

private theorem ofText?_signedText {p : NumberParts} (hp : p.WellFormed) (negative : Bool) :
    Decimal.ofText? (signedText negative p) = some { p.decimal with negative } := by
  have hnumeral : (if negative = true then (signedText negative p).tail else signedText negative p) =
      p.text := by
    cases negative <;> rfl
  rw [Decimal.ofText?]
  simp only [head?_signedText hp, Bool.decide_eq_true, hnumeral, Numeral.scan_text hp, if_true]

private theorem exists_plain {n : ℕ} {e : ℤ} (hzero : n = 0 → e = 0) :
    ∃ p : NumberParts, p.WellFormed ∧
      Notation.plain.positionalText (Nat.toDigits 10 n) e = p.text ∧
      p.decimal.magnitude = n * 10 ^ e ∧ p.decimal.exponent = min 0 e := by
  unfold Notation.positionalText
  simp only
  by_cases hsmall : (Nat.toDigits 10 n).length + e ≤ 0
  · obtain ⟨k, hk⟩ := Int.eq_ofNat_of_zero_le (by omega : 0 ≤ -((Nat.toDigits 10 n).length + e))
    have hzeros : (-((Nat.toDigits 10 n).length + e)).toNat = k := by omega
    have hlays := lays_below_one (by omega : e = -(k + (Nat.toDigits 10 n).length : ℕ))
    refine ⟨_, hlays.wellFormed, ?_, hlays.magnitude, ?_⟩
    · rw [if_pos hsmall, hzeros]
      simp [text, fractionText, powerText]
    · simp only [decimal, Decimal.ofRuns, Option.getD_some, Option.getD_none, List.length_append,
        List.length_replicate]
      omega
  by_cases hwhole : (Nat.toDigits 10 n).length ≤ (Nat.toDigits 10 n).length + e
  · obtain ⟨k, rfl⟩ := Int.eq_ofNat_of_zero_le (by omega : 0 ≤ e)
    have hlays := lays_whole (n := n) (k := k) rfl hzero
    have hvalue : Nat.ofDigitChars 10 (Nat.toDigits 10 n ++ List.replicate k '0') 0 = 10 ^ k * n := by
      rw [Nat.ofDigitChars_append, Nat.ofDigitChars_ten_toDigits, Nat.ofDigitChars_replicate_zero]
    refine ⟨_, hlays.wellFormed.without_fraction none, ?_, ?_, ?_⟩
    · rw [if_neg hsmall, if_pos hwhole]
      simp [text, fractionText, powerText, Notation.plain]
    · simp [decimal, Decimal.magnitude, Decimal.ofRuns, hvalue, mul_comm]
    · simp [decimal, Decimal.ofRuns]
  · have hn : 0 < n := by omega
    obtain ⟨k, hk⟩ := Int.eq_ofNat_of_zero_le (by omega : 0 ≤ (Nat.toDigits 10 n).length + e)
    have hpoint : ((Nat.toDigits 10 n).length + e).toNat = k := by omega
    have hlays := lays_mixed (by omega : 0 < k) (by omega)
      (by omega : e = k - (Nat.toDigits 10 n).length) hn
    refine ⟨_, hlays.wellFormed, ?_, hlays.magnitude, ?_⟩
    · rw [if_neg hsmall, if_neg hwhole, hpoint]
      simp [text, fractionText, powerText]
    · simp only [decimal, Decimal.ofRuns, Option.getD_some, Option.getD_none, List.length_drop]
      omega

end Json.NumberParts

/-- The text of a finite float in full reads as its shortest decimal. -/
theorem Notation.exists_ofText?_plain {x : Float} (hx : x.isFinite = true) :
    ∃ d, Decimal.ofText? (plain.text x).toList = some d ∧
      d.negative = (Number.shortest plain.tieUp x).negative ∧
      d.magnitude = (Number.shortest plain.tieUp x).magnitude ∧
      d.exponent = min 0 (Number.shortest plain.tieUp x).exponent := by
  obtain ⟨p, hp, htext, hmagnitude, hexponent⟩ :=
    Json.NumberParts.exists_plain (Number.shortest_exponent_eq_zero plain.tieUp x)
  have hsigned : plain.decimalText (Number.shortest plain.tieUp x) =
      Json.NumberParts.signedText (Number.shortest plain.tieUp x).negative p := by
    rw [Json.NumberParts.signedText, ← htext]
    rfl
  rw [toList_text _ hx, hsigned]
  exact ⟨_, Json.NumberParts.ofText?_signedText hp _, rfl, hmagnitude, hexponent⟩

end PriceFormula
