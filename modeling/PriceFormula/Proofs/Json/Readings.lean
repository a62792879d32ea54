import PriceFormula.Proofs.Json.Magnitude
import PriceFormula.Proofs.Json.Values

namespace PriceFormula.Json

/-- A reading of floats is correctly rounded if it gives the nearest float wherever that is finite.
-/
def CorrectlyRounded (reading : FloatReading) : Prop :=
  ∀ (whole fraction : List Char) (power : ℤ), whole ≠ [] → (∀ c ∈ whole, c.isDigit = true) →
    (∀ c ∈ fraction, c.isDigit = true) →
    (Decimal.ofRuns whole fraction power).toFloat.isFinite = true →
    reading whole fraction power = some (Decimal.ofRuns whole fraction power).toFloat

theorem CorrectlyRounded.reads {reading : FloatReading} (h : CorrectlyRounded reading)
    {p : NumberParts} (hp : p.WellFormed) (hfinite : p.decimal.toFloat.isFinite = true) :
    reading p.whole (p.fraction.getD []) (p.power.getD 0) = some p.decimal.toFloat := by
  refine h _ _ _ hp.whole_ne hp.whole_digits ?_ hfinite
  cases hcase : p.fraction with
  | none => intro c hc; cases hc
  | some digits => exact hp.fraction_digits digits hcase

def nearestReading : FloatReading := fun whole fraction power =>
  some (Decimal.ofRuns whole fraction power).toFloat |>.filter Float.isFinite

theorem correctlyRounded_nearestReading : CorrectlyRounded nearestReading := by
  intro whole fraction power _ _ _ hfinite
  exact Option.filter_some_pos hfinite

-- the magnitudes of the running reader may end next to the nearest float
example : ¬ CorrectlyRounded magnitude? := by
  intro h
  have hnearest := h ['1'] "602176634".toList (-19) nofun (List.all_eq_true.mp (by decide))
    (List.all_eq_true.mp (by decide)) (by decide +kernel)
  revert hnearest
  decide +kernel

def ReadsAs (reading : FloatReading) (x y : Float) : Prop :=
  ∃ p : NumberParts, p.WellFormed ∧ p.IsFloat ∧ writtenFloat x = p.text ∧
    reading p.whole (p.fraction.getD []) (p.power.getD 0) = some y

def ReadsBack (reading : FloatReading) (x : Float) : Prop :=
  ∃ p : NumberParts, p.WellFormed ∧ p.IsFloat ∧ writtenFloat x = p.text ∧
    reading p.whole (p.fraction.getD []) (p.power.getD 0) = some x

section Positive
variable {x : Float} (hx : x.isFinite = true) (hpos : 0 < x)
include hx hpos

/-- Positive floats read back where reading rounds correctly. -/
theorem readsBack_of_correctlyRounded {reading : FloatReading}
    (hreading : CorrectlyRounded reading) : ReadsBack reading x := by
  obtain ⟨p, hlays, -, hvalue, htext⟩ := exists_writtenFloat_positive hx hpos
  refine ⟨p, hlays.wellFormed, hlays.isFloat, htext, ?_⟩
  rw [hreading.reads hlays.wellFormed (hvalue ▸ hx), hvalue]

/-- Positive floats of ordinary size, with digits up to fifteen and at most twenty-two of them
behind the point, read back by their magnitudes. -/
theorem readsBack_of_short
    (hdigits : (Number.shortest Notation.json.tieUp x).digits *
      10 ^ ((Number.shortest Notation.json.tieUp x).exponent.toNat + 1) < 2 ^ 53)
    (hexponent : -22 ≤ (Number.shortest Notation.json.tieUp x).exponent) :
    ReadsBack magnitude? x := by
  obtain ⟨p, hlays, hmagnitude, hvalue, htext⟩ := exists_writtenFloat_positive hx hpos
  have hshort : p.decimal.digits < 2 ^ 53 ∧ p.decimal.exponent.natAbs ≤ 22 := by
    rcases hlays.decimal_eq with heq | ⟨k, hk, heq⟩
    · have hpositive : 0 < (Number.shortest Notation.json.tieUp x).digits := by
        have := Decimal.magnitude_pos.mp hmagnitude
        rwa [heq] at this
      have hpower := (Nat.le_mul_of_pos_left _ hpositive).trans_lt hdigits
      have hlow : (Number.shortest Notation.json.tieUp x).exponent.toNat < 16 := by
        refine Nat.lt_of_not_le fun hle => ?_
        have := Nat.pow_le_pow_right (n := 10) (by norm_num) hle
        rw [pow_succ] at hpower
        omega
      rw [heq]
      exact ⟨(Nat.le_mul_of_pos_right _ (by positivity)).trans_lt hdigits, by simp only; omega⟩
    · rw [heq]
      rw [hk, Int.toNat_natCast, Nat.mul_comm] at hdigits
      exact ⟨hdigits, (by decide : (-1 : ℤ).natAbs ≤ 22)⟩
  refine ⟨p, hlays.wellFormed, hlays.isFloat, htext, ?_⟩
  have hscaled := scaled?_of_short (Decimal.magnitude_pos.mp hmagnitude) hshort.1 hshort.2
  rw [magnitude?_of_fits (hshort.1.trans (by norm_num)), ← hvalue]
  exact hscaled

end Positive

theorem ReadsBack.readsAs {reading : FloatReading} {x : Float} (h : ReadsBack reading x) :
    ReadsAs reading x x := h

namespace Reader
variable {reading : FloatReading} {x y : Float} (hx : ReadsAs reading x y) {rest : List Char}
  (hrest : Delimited rest)
include hx hrest

theorem valueBy_of_readsAs (depth : Nat) :
    valueBy reading true depth (writtenFloat x ++ rest) = .ok (.float y, rest) := by
  obtain ⟨p, hp, hfloat, htext, hsome⟩ := hx
  have hread := @valueBy_signedText reading true p hp false depth rest hrest
  rw [htext]
  rw [numberValue_of_isFloat hfloat hsome] at hread
  exact hread

theorem number_of_readsAs : number reading (writtenFloat x ++ rest) = .ok (y, rest) := by
  have hread := valueBy_of_readsAs hx hrest 0
  obtain ⟨p, hp, -, htext, -⟩ := hx
  obtain ⟨c, s, hhead, hdigit⟩ := hp.exists_text_eq
  rw [htext, hhead] at hread ⊢
  exact number_digit hdigit hread rfl

end Reader
end PriceFormula.Json
