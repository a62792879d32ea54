import PriceFormula.Json.Reader
import PriceFormula.Proofs.Except
import PriceFormula.Proofs.Text.Run

namespace PriceFormula.Json

def Delimited (s : List Char) : Prop := ∀ c, s.head? = some c → c = ',' ∨ c = ']' ∨ c = '\x7d'

theorem delimited_cons {c : Char} (h : c = ',' ∨ c = ']' ∨ c = '\x7d') (s : List Char) :
    Delimited (c :: s) := by
  intro d hd
  obtain rfl := Option.some.inj hd
  exact h

structure NumberParts where
  whole : List Char
  fraction : Option (List Char)
  power : Option Int

namespace NumberParts

def powerText : Option Int → List Char
  | none => []
  | some n => 'e' :: (if n < 0 then '-' else '+') :: Nat.toDigits 10 n.natAbs

def fractionText : Option (List Char) → List Char
  | none => []
  | some digits => '.' :: digits

def text (p : NumberParts) : List Char := p.whole ++ (fractionText p.fraction ++ powerText p.power)

/-- Digits that a reader takes as they are: only zero starts with a zero, and a point has digits on
both sides. -/
structure WellFormed (p : NumberParts) : Prop where
  whole_ne : p.whole ≠ []
  whole_digits : ∀ c ∈ p.whole, c.isDigit = true
  zero_alone : p.whole.head? = some '0' → p.whole.length = 1
  fraction_ne : ∀ digits, p.fraction = some digits → digits ≠ []
  fraction_digits : ∀ digits, p.fraction = some digits → ∀ c ∈ digits, c.isDigit = true

/-- Without a fraction, only the digits of the whole part count. -/
theorem WellFormed.without_fraction {p : NumberParts} (hp : p.WellFormed) (power : Option Int) :
    WellFormed ⟨p.whole, none, power⟩ :=
  ⟨hp.whole_ne, hp.whole_digits, hp.zero_alone, nofun, nofun⟩

/-- A number starts with a digit. -/
theorem WellFormed.exists_text_eq {p : NumberParts} (hp : p.WellFormed) :
    ∃ c s, p.text = c :: s ∧ c.isDigit = true := by
  cases hwhole : p.whole with
  | nil => exact absurd hwhole hp.whole_ne
  | cons c whole =>
    exact ⟨c, _, by rw [text, hwhole, List.cons_append],
      hp.whole_digits c (hwhole ▸ List.mem_cons_self)⟩

def IsFloat (p : NumberParts) : Prop := p.fraction ≠ none ∨ p.power ≠ none

end NumberParts

namespace Reader

section Digits
variable {run rest : List Char} (hrun : ∀ c ∈ run, c.isDigit = true)
  (hrest : ∀ c, rest.head? = some c → c.isDigit = false)
include hrun hrest

private theorem someDigits_append (keep : Bool) (hne : run ≠ []) :
    someDigits keep (run ++ rest) = .ok (run, rest) := by
  have hdigits : Numeral.digitRun (run ++ rest) = run := Text.takeWhile_append_of_stop hrun hrest
  rw [someDigits]
  simp only [hdigits]
  rw [if_pos hne, List.drop_left]

private theorem wholeDigits_append (keep : Bool) (hne : run ≠ [])
    (hzero : run.head? = some '0' → run.length = 1) :
    wholeDigits keep (run ++ rest) = .ok (run, rest) := by
  rw [wholeDigits, someDigits_append hrun hrest keep hne, ok_bind]
  simp only
  rw [if_neg fun h => h.2 (hzero h.1)]

private theorem fractionDigits_append (keep : Bool) (hne : run ≠ []) :
    fractionDigits keep ('.' :: (run ++ rest)) = .ok (some run, rest) := by
  rw [fractionDigits, someDigits_append hrun hrest keep hne]
  rfl

end Digits

private theorem fractionDigits_none {s : List Char} (h : s.head? ≠ some '.') (keep : Bool) :
    fractionDigits keep s = .ok (none, s) := by
  unfold fractionDigits
  split
  · exact absurd rfl h
  · rfl

private theorem exponent_none {s : List Char} (h : ∀ c, s.head? = some c → c ≠ 'e' ∧ c ≠ 'E')
    (keep : Bool) : exponent keep s = .ok (none, s) := by
  cases s with
  | nil => rfl
  | cons c s =>
    obtain ⟨hlower, hupper⟩ := h c rfl
    unfold exponent
    exact if_neg (not_or.mpr ⟨hlower, hupper⟩)

private theorem exponent_powerText {rest : List Char}
    (hrest : ∀ c, rest.head? = some c → c.isDigit = false) (keep : Bool) (n : Int) :
    exponent keep (NumberParts.powerText (some n) ++ rest) = .ok (some n, rest) := by
  have hdigits := someDigits_append
    (fun _ h => Nat.isDigit_of_mem_toDigits (by decide) (by decide) h) hrest keep
    (Nat.toDigits_ne_nil (n := n.natAbs) (b := 10))
  rw [NumberParts.powerText]
  by_cases hn : n < 0
  · have hsign : -1 * (n.natAbs : Int) = n := by omega
    rw [if_pos hn]
    change (someDigits keep (Nat.toDigits 10 n.natAbs ++ rest) >>= _) = _
    rw [hdigits, ok_bind]
    simp only [Nat.ofDigitChars_ten_toDigits, hsign]
  · have hsign : 1 * (n.natAbs : Int) = n := by omega
    rw [if_neg hn]
    change (someDigits keep (Nat.toDigits 10 n.natAbs ++ rest) >>= _) = _
    rw [hdigits, ok_bind]
    simp only [Nat.ofDigitChars_ten_toDigits, hsign]

section Stops
variable {rest : List Char} (hrest : Delimited rest)
include hrest

private theorem stops_delimited {c : Char} (hc : rest.head? = some c) :
    c.isDigit = false ∧ c ≠ '.' ∧ c ≠ 'e' ∧ c ≠ 'E' := by
  rcases hrest c hc with rfl | rfl | rfl <;> decide

/-- What stands behind the fraction starts with neither digit nor point. -/
theorem stops_power (power : Option Int) {c : Char}
    (hc : (NumberParts.powerText power ++ rest).head? = some c) : c.isDigit = false ∧ c ≠ '.' := by
  cases power with
  | none =>
    obtain ⟨hdigit, hpoint, -⟩ := stops_delimited hrest hc
    exact ⟨hdigit, hpoint⟩
  | some n =>
    obtain rfl := Option.some.inj hc
    decide

/-- What stands behind the whole digits starts with no digit. -/
theorem stops_fraction (fraction : Option (List Char)) (power : Option Int) {c : Char}
    (hc : (NumberParts.fractionText fraction ++
      (NumberParts.powerText power ++ rest)).head? = some c) : c.isDigit = false := by
  cases fraction with
  | none => exact (stops_power hrest power hc).1
  | some digits =>
    obtain rfl := Option.some.inj hc
    decide

private theorem fractionDigits_text {p : NumberParts} (hp : p.WellFormed) (keep : Bool) :
    fractionDigits keep (NumberParts.fractionText p.fraction ++
      (NumberParts.powerText p.power ++ rest)) =
        .ok (p.fraction, NumberParts.powerText p.power ++ rest) := by
  cases hcase : p.fraction with
  | none => exact fractionDigits_none (fun h => (stops_power hrest p.power h).2 rfl) keep
  | some digits =>
    exact fractionDigits_append (hp.fraction_digits digits hcase)
      (fun c hc => (stops_power hrest p.power hc).1) keep (hp.fraction_ne digits hcase)

private theorem exponent_text (power : Option Int) (keep : Bool) :
    exponent keep (NumberParts.powerText power ++ rest) = .ok (power, rest) := by
  cases power with
  | none => exact exponent_none (fun c hc => (stops_delimited hrest hc).2.2) keep
  | some n => exact exponent_powerText (fun c hc => (stops_delimited hrest hc).1) keep n

/-- A number reads back as its parts, up to what divides it from the rest. -/
theorem numberTail_text {p : NumberParts} (hp : p.WellFormed) (reading : FloatReading)
    (keep negative : Bool) :
    numberTail reading keep negative (p.text ++ rest) =
      (if keep then numberValue reading negative p.whole p.fraction p.power
        else .ok .null).map (·, rest) := by
  have hwhole := wholeDigits_append hp.whole_digits
    (fun c hc => stops_fraction hrest p.fraction p.power hc) keep hp.whole_ne hp.zero_alone
  rw [numberTail, NumberParts.text, List.append_assoc, List.append_assoc, hwhole, ok_bind]
  simp only [fractionDigits_text hrest hp, ok_bind, exponent_text hrest]
  cases keep with
  | false => rfl
  | true =>
    simp only [if_true]
    cases numberValue reading negative p.whole p.fraction p.power <;> rfl

end Stops

/-- A number that shows it is a float goes through the reading of floats. -/
theorem numberValue_of_isFloat {p : NumberParts} (hp : p.IsFloat) {reading : FloatReading}
    {x : Float} (hx : reading p.whole (p.fraction.getD []) (p.power.getD 0) = some x)
    (negative : Bool) :
    numberValue reading negative p.whole p.fraction p.power =
      .ok (.float (if negative then -x else x)) := by
  unfold numberValue
  simp only [hx]
  split
  · rename_i hfraction hpower
    exact absurd hp (by simp [NumberParts.IsFloat, hfraction, hpower])
  · rfl

end Reader
end PriceFormula.Json
