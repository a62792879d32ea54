import PriceFormula.Json.Writer
import PriceFormula.Proofs.Json.Numerals
import PriceFormula.Proofs.Number.Shortest
import PriceFormula.Proofs.Number.Sign

namespace PriceFormula.Json

private theorem head?_toDigits {n : ℕ} (hn : 0 < n) : (Nat.toDigits 10 n).head? ≠ some '0' := by
  induction n using Nat.strongRecOn with
  | ind n ih =>
    rcases Nat.lt_or_ge n 10 with hlt | hle
    · have hdigit : ∀ n : Fin 10, 0 < n.val → Nat.digitChar n ≠ '0' := by decide
      rw [Nat.toDigits_of_lt_base hlt]
      exact fun h => hdigit ⟨n, hlt⟩ hn (Option.some.inj h)
    · have hquotient : 0 < n / 10 := Nat.div_pos hle (by decide)
      rw [Nat.toDigits_of_base_le (by decide) hle,
        List.head?_append_of_ne_nil _ Nat.toDigits_ne_nil]
      exact ih _ (Nat.div_lt_self hn (by decide)) hquotient

theorem isDigit_toDigits {n : ℕ} : ∀ c ∈ Nat.toDigits 10 n, c.isDigit = true :=
  fun _ h => Nat.isDigit_of_mem_toDigits (by decide) (by decide) h

private theorem isDigit_replicate_zero {n : ℕ} : ∀ c ∈ List.replicate n '0', c.isDigit = true := by
  intro c hc
  obtain rfl := List.eq_of_mem_replicate hc
  rfl

namespace NumberParts

def decimal (p : NumberParts) : Decimal := .ofRuns p.whole (p.fraction.getD []) (p.power.getD 0)

/-- What a layout of a decimal has to be: digits with a mark of floats, read as the decimal itself
or, for a whole number, with the zeros up to and behind the point among the digits. -/
structure Lays (p : NumberParts) (n : ℕ) (e : ℤ) : Prop where
  wellFormed : p.WellFormed
  isFloat : p.IsFloat
  decimal_eq : p.decimal = ⟨false, n, e⟩ ∨
    ∃ k : ℕ, e = k ∧ p.decimal = ⟨false, 10 ^ (k + 1) * n, -1⟩

/-- A layout keeps the value. -/
theorem Lays.magnitude {p : NumberParts} {n : ℕ} {e : ℤ} (h : p.Lays n e) :
    p.decimal.magnitude = n * 10 ^ e := by
  rcases h.decimal_eq with heq | ⟨k, rfl, heq⟩
  · rw [heq, Decimal.magnitude]
  · rw [heq, Decimal.magnitude, zpow_natCast, pow_succ]
    push_cast
    ring

section Layouts
variable {n : ℕ} {e : ℤ}

/-- A number below one: zeros up to the first digit. -/
theorem lays_below_one {k : ℕ} (he : e = -(k + (Nat.toDigits 10 n).length : ℕ)) :
    Lays ⟨['0'], some (List.replicate k '0' ++ Nat.toDigits 10 n), none⟩ n e := by
  refine ⟨⟨nofun, isDigit_replicate_zero (n := 1), fun _ => rfl, ?_, ?_⟩, .inl nofun, ?_⟩
  · rintro _ ⟨⟩
    simp
  · rintro _ ⟨⟩ c hc
    exact (List.mem_append.mp hc).elim (isDigit_replicate_zero c) (isDigit_toDigits c)
  · have hdigits : Nat.ofDigitChars 10 (['0'] ++ (List.replicate k '0' ++ Nat.toDigits 10 n)) 0 =
        n := by
      rw [Nat.ofDigitChars_append, Nat.ofDigitChars_append]
      have hzero : Nat.ofDigitChars 10 ['0'] 0 = 0 := by decide
      rw [hzero, Nat.ofDigitChars_replicate_zero, Nat.mul_zero, Nat.ofDigitChars_ten_toDigits]
    have hexponent : 0 - ((List.replicate k '0' ++ Nat.toDigits 10 n).length : ℤ) = e := by
      rw [List.length_append, List.length_replicate, he]
      omega
    left
    simp only [decimal, Decimal.ofRuns, Option.getD_some, Option.getD_none, hdigits, hexponent]

/-- A whole number: zeros up to the point, and one behind it. -/
theorem lays_whole {k : ℕ} (he : e = k) (hzero : n = 0 → e = 0) :
    Lays ⟨Nat.toDigits 10 n ++ List.replicate k '0', some ['0'], none⟩ n e := by
  refine ⟨⟨?_, ?_, ?_, ?_, ?_⟩, .inl nofun, ?_⟩
  · simp
  · intro c hc
    exact (List.mem_append.mp hc).elim (isDigit_toDigits c) (isDigit_replicate_zero c)
  · intro hhead
    rcases Nat.eq_zero_or_pos n with rfl | hn
    · obtain rfl : k = 0 := by
        have := hzero rfl
        omega
      rfl
    · rw [List.head?_append_of_ne_nil _ Nat.toDigits_ne_nil] at hhead
      exact absurd hhead (head?_toDigits hn)
  · rintro _ ⟨⟩
    nofun
  · rintro _ ⟨⟩
    exact isDigit_replicate_zero (n := 1)
  · have hdigits : Nat.ofDigitChars 10 (Nat.toDigits 10 n ++ List.replicate k '0' ++ ['0']) 0 =
        10 ^ (k + 1) * n := by
      rw [List.append_assoc, Nat.ofDigitChars_append, Nat.ofDigitChars_ten_toDigits,
        ← List.replicate_succ', Nat.ofDigitChars_replicate_zero]
    have hexponent : 0 - ((['0'] : List Char).length : ℤ) = -1 := by decide
    refine .inr ⟨k, he, ?_⟩
    simp only [decimal, Decimal.ofRuns, Option.getD_some, Option.getD_none, hdigits, hexponent]

/-- A number with digits on both sides of the point. -/
theorem lays_mixed {k : ℕ} (hk : 0 < k) (hlt : k < (Nat.toDigits 10 n).length)
    (he : e = k - (Nat.toDigits 10 n).length) (hn : 0 < n) :
    Lays ⟨(Nat.toDigits 10 n).take k, some ((Nat.toDigits 10 n).drop k), none⟩ n e := by
  have hne : (Nat.toDigits 10 n).take k ≠ [] := by
    intro h
    have := congrArg List.length h
    simp at this
    omega
  refine ⟨⟨hne, fun c hc => isDigit_toDigits c (List.mem_of_mem_take hc), ?_, ?_, ?_⟩, .inl nofun,
    ?_⟩
  · intro hhead
    rw [List.head?_take, if_neg (by omega)] at hhead
    exact absurd hhead (head?_toDigits hn)
  · rintro _ ⟨⟩ h
    have := congrArg List.length h
    simp at this
    omega
  · rintro _ ⟨⟩ c hc
    exact isDigit_toDigits c (List.mem_of_mem_drop hc)
  · have hexponent : 0 - (((Nat.toDigits 10 n).drop k).length : ℤ) = e := by
      rw [List.length_drop, he]
      omega
    left
    simp only [decimal, Decimal.ofRuns, Option.getD_some, Option.getD_none,
      List.take_append_drop, Nat.ofDigitChars_ten_toDigits, hexponent]

private theorem lays_scientific {d : Char} {rest : List Char}
    (hdigits : Nat.toDigits 10 n = d :: rest)
    (power : ℤ) (hpower : power = rest.length + e) :
    Lays ⟨[d], if rest = [] then none else some rest, some power⟩ n e := by
  have hmem : ∀ c ∈ d :: rest, c.isDigit = true := hdigits ▸ isDigit_toDigits
  have hfraction : ∀ digits, (if rest = [] then none else some rest) = some digits →
      digits = rest ∧ rest ≠ [] := by
    intro digits h
    split at h
    · nomatch h
    · rename_i hne
      exact ⟨(Option.some.inj h).symm, hne⟩
  refine ⟨⟨nofun, ?_, fun _ => rfl, ?_, ?_⟩, .inr nofun, ?_⟩
  · intro c hc
    obtain rfl := List.mem_singleton.mp hc
    exact hmem c List.mem_cons_self
  · intro digits h
    obtain ⟨rfl, hne⟩ := hfraction digits h
    exact hne
  · intro digits h c hc
    obtain ⟨rfl, -⟩ := hfraction digits h
    exact hmem c (List.mem_cons_of_mem d hc)
  · have hrest : (if rest = [] then none else some rest).getD [] = rest := by
      split
      · subst_vars
        rfl
      · rfl
    have hvalue : Nat.ofDigitChars 10 ([d] ++ rest) 0 = n := by
      rw [List.singleton_append, ← hdigits, Nat.ofDigitChars_ten_toDigits]
    have hexponent : power - (rest.length : ℤ) = e := by omega
    left
    simp only [decimal, Decimal.ofRuns, hrest, Option.getD_some, hvalue, hexponent]

/-- Every number is laid out in one of these ways. -/
theorem exists_lays (hzero : n = 0 → e = 0) :
    ∃ p : NumberParts, p.Lays n e ∧
      (if Notation.json.positional ((Nat.toDigits 10 n).length - 1 + e) then
        Notation.json.positionalText (Nat.toDigits 10 n) e
      else Notation.scientificText (Nat.toDigits 10 n) e) = p.text := by
  by_cases hpositional : Notation.json.positional ((Nat.toDigits 10 n).length - 1 + e) = true
  · rw [if_pos hpositional]
    unfold Notation.positionalText
    simp only
    by_cases hsmall : (Nat.toDigits 10 n).length + e ≤ 0
    · obtain ⟨k, hk⟩ := Int.eq_ofNat_of_zero_le (by omega : 0 ≤ -((Nat.toDigits 10 n).length + e))
      have hzeros : (-((Nat.toDigits 10 n).length + e)).toNat = k := by omega
      refine ⟨_, lays_below_one (by omega : e = -(k + (Nat.toDigits 10 n).length : ℕ)), ?_⟩
      rw [if_pos hsmall, hzeros]
      simp [text, fractionText, powerText]
    by_cases hwhole : (Nat.toDigits 10 n).length ≤ (Nat.toDigits 10 n).length + e
    · obtain ⟨k, hk⟩ := Int.eq_ofNat_of_zero_le (by omega : 0 ≤ e)
      have hzeros : e.toNat = k := by omega
      refine ⟨_, lays_whole hk hzero, ?_⟩
      rw [if_neg hsmall, if_pos hwhole, hzeros]
      simp [text, fractionText, powerText, Notation.json]
    · obtain ⟨k, hk⟩ := Int.eq_ofNat_of_zero_le
        (by omega : 0 ≤ (Nat.toDigits 10 n).length + e)
      have hpoint : ((Nat.toDigits 10 n).length + e).toNat = k := by omega
      refine ⟨_, lays_mixed (by omega : 0 < k) (by omega) (by omega) (by omega), ?_⟩
      rw [if_neg hsmall, if_neg hwhole, hpoint]
      simp [text, fractionText, powerText]
  · rw [if_neg hpositional]
    cases hdigits : Nat.toDigits 10 n with
    | nil => exact absurd hdigits Nat.toDigits_ne_nil
    | cons d rest =>
      have hpower : (((d :: rest).length : ℕ) : ℤ) - 1 + e = rest.length + e := by
        rw [List.length_cons]
        omega
      refine ⟨_, lays_scientific hdigits (rest.length + e) rfl, ?_⟩
      unfold Notation.scientificText
      simp only [hpower]
      cases rest <;> rfl

end Layouts

def signedText (negative : Bool) (p : NumberParts) : List Char :=
  if negative then '-' :: p.text else p.text

private theorem exists_lays_decimalText (d : Decimal) (hzero : d.digits = 0 → d.exponent = 0) :
    ∃ p : NumberParts, p.Lays d.digits d.exponent ∧
      Notation.json.decimalText d = signedText d.negative p := by
  obtain ⟨p, hlays, htext⟩ := exists_lays hzero
  refine ⟨p, hlays, ?_⟩
  rw [signedText, ← htext]
  rfl

end NumberParts

open NumberParts

private theorem writtenFloat_eq {x : Float} (hx : x.isFinite = true) :
    writtenFloat x =
      Notation.json.decimalText (Number.shortest Notation.json.tieUp x) := by
  rw [writtenFloat, if_pos hx, Notation.toList_text _ hx]

/-- A finite float is written as its sign and a layout of its shortest decimal, which is read as its
magnitude. -/
theorem exists_writtenFloat_signed {x : Float} (hx : x.isFinite = true) :
    ∃ p : NumberParts, p.Lays (Number.shortest Notation.json.tieUp x).digits
        (Number.shortest Notation.json.tieUp x).exponent ∧
      p.decimal.toFloat = x.abs ∧ writtenFloat x = signedText (Number.isNegative x) p := by
  obtain ⟨d, hsign, hfloat, hshortest⟩ := Number.exists_shortest_of_isFinite hx Notation.json.tieUp
  obtain ⟨p, hlays, htext⟩ := exists_lays_decimalText (Number.shortest Notation.json.tieUp x)
    (Number.shortest_exponent_eq_zero _ x)
  refine ⟨p, hlays, ?_, ?_⟩
  · rw [hshortest] at hlays
    have hvalue : p.decimal.magnitude = d.magnitude := hlays.magnitude
    rw [Decimal.toFloat_congr rfl hsign hvalue, hfloat]
  · rw [writtenFloat_eq hx, htext, hshortest]

/-- A finite float is written as a number. -/
theorem exists_writtenFloat {x : Float} (hx : x.isFinite = true) :
    ∃ negative p, NumberParts.WellFormed p ∧ writtenFloat x = signedText negative p := by
  obtain ⟨p, hlays, -, htext⟩ := exists_writtenFloat_signed hx
  exact ⟨_, p, hlays.wellFormed, htext⟩

/-- A positive float is written without a sign, as a layout of its shortest decimal, and so as a
number that rounds to that float. -/
theorem exists_writtenFloat_positive {x : Float} (hx : x.isFinite = true) (hpos : 0 < x) :
    ∃ p : NumberParts, p.Lays (Number.shortest Notation.json.tieUp x).digits
        (Number.shortest Notation.json.tieUp x).exponent ∧
      0 < p.decimal.magnitude ∧ p.decimal.toFloat = x ∧ writtenFloat x = p.text := by
  obtain ⟨m, e, hm, hparts⟩ := Number.finite_positive_iff.mp ⟨hx, hpos⟩
  obtain ⟨p, hlays, hfloat, htext⟩ := exists_writtenFloat_signed hx
  have hunsigned : Number.isNegative x = false := by
    unfold Number.isNegative
    rw [hparts]
  obtain ⟨d, -, hmagnitude, -, hshortest⟩ := Number.exists_shortest hparts Notation.json.tieUp
  have hvalue : p.decimal.magnitude = d.magnitude := by
    rw [hshortest] at hlays
    exact hlays.magnitude
  refine ⟨p, hlays, hvalue ▸ hmagnitude, ?_, ?_⟩
  · rw [hfloat, Number.abs_eq_of_positive hparts]
  · rw [htext, hunsigned]
    rfl

def wholeParts (n : ℕ) : NumberParts := ⟨Nat.toDigits 10 n, none, none⟩

theorem wellFormed_wholeParts (n : ℕ) : (wholeParts n).WellFormed := by
  refine ⟨Nat.toDigits_ne_nil, isDigit_toDigits, fun h => ?_, nofun, nofun⟩
  rcases Nat.eq_zero_or_pos n with rfl | hn
  · rfl
  · exact absurd h (head?_toDigits hn)

/-- An integer is written as a number without a point. -/
theorem writtenInteger_eq (n : ℤ) :
    (toString n).toList = signedText (n < 0) (wholeParts n.natAbs) := by
  have htext (k : ℕ) : (wholeParts k).text = Nat.toDigits 10 k := List.append_nil _
  cases n with
  | ofNat k =>
    rw [signedText, if_neg (by simp), htext]
    exact Nat.toList_repr
  | negSucc k =>
    have hsign : (toString (Int.negSucc k)).toList = ("-" ++ (k + 1).repr).toList := rfl
    rw [signedText, if_pos (by simp), htext, hsign, String.toList_append, Nat.toList_repr]
    rfl

end PriceFormula.Json
