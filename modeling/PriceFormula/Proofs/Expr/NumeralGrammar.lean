import PriceFormula.Proofs.Expr.Numerals

/-! The grammar of numerals: digits with at most one point among or before them, then at most one
power of ten. The longest numeral at the head of a text is in the grammar, and a reader of whole
texts accepts all that is in it. -/

namespace PriceFormula.Numeral

def Digits (s : List Char) : Prop := s ≠ [] ∧ ∀ c ∈ s, c.isDigit = true

inductive Mantissa : List Char → Prop
  | whole {w : List Char} : Digits w → Mantissa w
  | point {w f : List Char} : Digits w → (∀ c ∈ f, c.isDigit = true) → Mantissa (w ++ '.' :: f)
  | fraction {f : List Char} : Digits f → Mantissa ('.' :: f)

inductive Power : List Char → Prop
  | none : Power []
  | unsigned {mark : Char} {ds : List Char} :
    mark = 'e' ∨ mark = 'E' → Digits ds → Power (mark :: ds)
  | signed {mark sign : Char} {ds : List Char} :
    mark = 'e' ∨ mark = 'E' → sign = '+' ∨ sign = '-' → Digits ds → Power (mark :: sign :: ds)

def Grammatical (s : List Char) : Prop := ∃ m p, s = m ++ p ∧ Mantissa m ∧ Power p

def Stopped (s : List Char) : Prop := ∀ c, s.head? = some c → c.isDigit = false

private theorem digitRun_append_of_stopped {ds s : List Char} (hds : ∀ c ∈ ds, c.isDigit = true)
    (hs : Stopped s) : digitRun (ds ++ s) = ds :=
  Text.takeWhile_append_of_stop hds hs

theorem isDigit_of_mem_digitRun {s : List Char} : ∀ c ∈ digitRun s, c.isDigit = true :=
  fun _ hc => List.mem_takeWhile_imp hc

theorem digitRun_append_drop (s : List Char) :
    digitRun s ++ s.drop (digitRun s).length = s := by
  rw [digitRun, Text.drop_length_takeWhile, List.takeWhile_append_dropWhile]

/-! Powers of ten. -/

private theorem signed_append {ds s : List Char} (hds : Digits ds) (hs : Stopped s) (before : Nat)
    (sign : Int) :
    powerOfTen.signed (ds ++ s) before sign =
      (sign * Nat.ofDigitChars 10 ds 0, before + ds.length) := by
  rw [powerOfTen.signed, digitRun_append_of_stopped hds.2 hs, if_neg hds.1]

private theorem Digits.head?_ne {ds : List Char} (hds : Digits ds) (s : List Char) {c : Char}
    (hc : c.isDigit = false) : (ds ++ s).head? ≠ some c := by
  obtain ⟨d, ds', rfl⟩ := List.exists_cons_of_ne_nil hds.1
  intro h
  obtain rfl := Option.some.inj h
  rw [hds.2 d List.mem_cons_self] at hc
  cases hc

private theorem Power.powerOfTen_append {p : List Char} (hp : Power p) (hne : p ≠ []) :
    ∃ e, ∀ s, Stopped s → powerOfTen (p ++ s) = (e, p.length) := by
  cases hp with
  | none => exact absurd rfl hne
  | @unsigned mark ds hmark hds =>
    refine ⟨1 * Nat.ofDigitChars 10 ds 0, fun s hs => ?_⟩
    rw [List.cons_append, powerOfTen_unsigned hmark (hds.head?_ne s (by decide))
      (hds.head?_ne s (by decide)), signed_append hds hs, List.length_cons, Nat.add_comm]
  | @signed mark sign ds hmark hsign hds =>
    have hlength : (mark :: sign :: ds).length = 2 + ds.length := by
      rw [List.length_cons, List.length_cons, Nat.add_assoc, Nat.add_comm]
    rcases hsign with rfl | rfl
    · refine ⟨1 * Nat.ofDigitChars 10 ds 0, fun s hs => ?_⟩
      rw [List.cons_append, List.cons_append, (powerOfTen_signed hmark _).2, signed_append hds hs,
        hlength]
    · refine ⟨-1 * Nat.ofDigitChars 10 ds 0, fun s hs => ?_⟩
      rw [List.cons_append, List.cons_append, (powerOfTen_signed hmark _).1, signed_append hds hs,
        hlength]

private theorem Power.powerOfTen_self {p : List Char} (hp : Power p) :
    (powerOfTen p).2 = p.length := by
  by_cases hne : p = []
  · rw [hne]
    rfl
  · obtain ⟨e, he⟩ := hp.powerOfTen_append hne
    have := he [] (fun c hc => by cases hc)
    rw [List.append_nil] at this
    rw [this]

private theorem Power.head?_eq {p : List Char} (hp : Power p) {c : Char} (hc : p.head? = some c) :
    c = 'e' ∨ c = 'E' := by
  cases hp with
  | none => cases hc
  | unsigned hmark _ => exact Option.some.inj hc ▸ hmark
  | signed hmark _ _ => exact Option.some.inj hc ▸ hmark

private theorem signed_cases (tail : List Char) (before : Nat) (sign : Int) :
    powerOfTen.signed tail before sign = (0, 0) ∨
      ∃ ds s, tail = ds ++ s ∧ Digits ds ∧ Stopped s := by
  by_cases hds : digitRun tail = []
  · exact .inl (if_pos hds)
  · exact .inr ⟨_, _, (digitRun_append_drop tail).symm, ⟨hds, isDigit_of_mem_digitRun⟩,
      fun c hc => Text.head?_drop_takeWhile hc⟩

/-- The power of ten that is read at the head of a text. -/
theorem exists_power (s : List Char) :
    ∃ p rest, s = p ++ rest ∧ Power p ∧ powerOfTen s = ((powerOfTen p).1, p.length) := by
  -- a power that is read at all is read on its own
  have hread {p rest : List Char} (hs : s = p ++ rest) (hp : Power p) (hne : p ≠ [])
      (hrest : Stopped rest) :
      ∃ p rest, s = p ++ rest ∧ Power p ∧ powerOfTen s = ((powerOfTen p).1, p.length) := by
    obtain ⟨e, he⟩ := hp.powerOfTen_append hne
    have hself := he [] (fun c hc => by cases hc)
    rw [List.append_nil] at hself
    exact ⟨p, rest, hs, hp, by rw [hs, he rest hrest, hself]⟩
  have hmissing (h : powerOfTen s = (0, 0)) :
      ∃ p rest, s = p ++ rest ∧ Power p ∧ powerOfTen s = ((powerOfTen p).1, p.length) :=
    ⟨[], s, rfl, .none, h⟩
  by_cases hmark : s.head? = some 'e' ∨ s.head? = some 'E'
  · obtain ⟨mark, rest, rfl⟩ : ∃ mark rest, s = mark :: rest :=
      List.exists_cons_of_ne_nil (by rintro rfl; simp at hmark)
    replace hmark : mark = 'e' ∨ mark = 'E' := by simpa using hmark
    by_cases hminus : rest.head? = some '-'
    · obtain ⟨tail, rfl⟩ := List.head?_eq_some_iff.mp hminus
      rcases signed_cases tail 2 (-1) with hnone | ⟨ds, s, rfl, hds, hs⟩
      · exact hmissing ((powerOfTen_signed hmark tail).1.trans hnone)
      · exact hread (p := mark :: '-' :: ds) rfl (.signed hmark (.inr rfl) hds)
          (List.cons_ne_nil _ _) hs
    by_cases hplus : rest.head? = some '+'
    · obtain ⟨tail, rfl⟩ := List.head?_eq_some_iff.mp hplus
      rcases signed_cases tail 2 1 with hnone | ⟨ds, s, rfl, hds, hs⟩
      · exact hmissing ((powerOfTen_signed hmark tail).2.trans hnone)
      · exact hread (p := mark :: '+' :: ds) rfl (.signed hmark (.inl rfl) hds)
          (List.cons_ne_nil _ _) hs
    rcases signed_cases rest 1 1 with hnone | ⟨ds, s, rfl, hds, hs⟩
    · exact hmissing ((powerOfTen_unsigned hmark hminus hplus).trans hnone)
    · exact hread (p := mark :: ds) rfl (.unsigned hmark hds) (List.cons_ne_nil _ _) hs
  · rw [not_or] at hmark
    exact hmissing (powerOfTen_of_ne hmark.1 hmark.2)

/-! Mantissas. -/

inductive Fraction : List Char → List Char → Prop
  | none : Fraction [] []
  | point {f : List Char} : (∀ c ∈ f, c.isDigit = true) → Fraction f ('.' :: f)

def Ended (fraction s : List Char) : Prop := Stopped s ∧ (fraction = [] → s.head? ≠ some '.')

private theorem Power.ended {p : List Char} (hp : Power p) (fraction : List Char) :
    Ended fraction p := by
  refine ⟨fun c hc => ?_, fun _ hc => ?_⟩
  · rcases hp.head?_eq hc with rfl | rfl <;> rfl
  · exact absurd (hp.head?_eq hc) (by decide)

private theorem Fraction.fractionAt_append {f text s : List Char} (h : Fraction f text)
    (hs : Ended text s) :
    fractionAt (text ++ s) = (f, text.length) := by
  cases h with
  | none => exact fractionAt_of_ne (hs.2 rfl)
  | point hf =>
    rw [List.cons_append, fractionAt_point, digitRun_append_of_stopped hf hs.1]
    rfl

theorem Fraction.stopped_append {f text s : List Char} (h : Fraction f text) (hs : Ended text s) :
    Stopped (text ++ s) := by
  cases h with
  | none => exact hs.1
  | point _ =>
    intro c hc
    obtain rfl := Option.some.inj hc
    rfl

/-- A numeral is read from its parts, unless it has no digit before its power of ten. -/
theorem scan_parts {whole f text s : List Char} (hwhole : ∀ c ∈ whole, c.isDigit = true)
    (hf : Fraction f text) (hs : Ended text s) :
    scan (whole ++ (text ++ s)) = if whole = [] ∧ f = [] then none else
      some (.ofRuns whole f (powerOfTen s).1, whole.length + text.length + (powerOfTen s).2) := by
  have hdigits : digitRun (whole ++ (text ++ s)) = whole :=
    digitRun_append_of_stopped hwhole (hf.stopped_append hs)
  have hpower : (whole ++ (text ++ s)).drop (whole.length + text.length) = s := by
    rw [← List.drop_drop, List.drop_left, List.drop_left]
  rw [scan]
  simp only [hdigits, List.drop_left, hf.fractionAt_append hs, hpower]

/-- Every text starts with what could be the mantissa of a numeral. -/
theorem exists_mantissa (s : List Char) : ∃ whole f text rest, s = whole ++ (text ++ rest) ∧
    (∀ c ∈ whole, c.isDigit = true) ∧ Fraction f text ∧ Ended text rest := by
  have hstopped : Stopped (s.drop (digitRun s).length) := fun c hc => Text.head?_drop_takeWhile hc
  have hsplit := digitRun_append_drop s
  by_cases hpoint : (s.drop (digitRun s).length).head? = some '.'
  · obtain ⟨tail, htail⟩ := List.head?_eq_some_iff.mp hpoint
    refine ⟨digitRun s, digitRun tail, '.' :: digitRun tail, tail.drop (digitRun tail).length, ?_,
      isDigit_of_mem_digitRun, .point isDigit_of_mem_digitRun,
      fun c hc => Text.head?_drop_takeWhile hc, fun h => by cases h⟩
    rw [List.cons_append, digitRun_append_drop, ← htail, hsplit]
  · exact ⟨digitRun s, [], [], s.drop (digitRun s).length, hsplit.symm, isDigit_of_mem_digitRun,
      .none, hstopped, fun _ => hpoint⟩

private theorem Fraction.mantissa {whole f text : List Char} (h : Fraction f text)
    (hwhole : ∀ c ∈ whole, c.isDigit = true) (hne : ¬(whole = [] ∧ f = [])) :
    Mantissa (whole ++ text) := by
  by_cases hnil : whole = []
  · subst hnil
    cases h with
    | none => exact absurd ⟨rfl, rfl⟩ hne
    | point hf => exact .fraction ⟨fun h => hne ⟨rfl, h⟩, hf⟩
  · cases h with
    | none =>
      rw [List.append_nil]
      exact .whole ⟨hnil, hwhole⟩
    | point hf => exact .point ⟨hnil, hwhole⟩ hf

private theorem Mantissa.parts {m : List Char} (h : Mantissa m) :
    ∃ whole f text, m = whole ++ text ∧
    (∀ c ∈ whole, c.isDigit = true) ∧ Fraction f text ∧ ¬(whole = [] ∧ f = []) := by
  cases h with
  | whole hw => exact ⟨m, [], [], (List.append_nil m).symm, hw.2, .none, fun h => hw.1 h.1⟩
  | point hw hf => exact ⟨_, _, _, rfl, hw.2, .point hf, fun h => hw.1 h.1⟩
  | fraction hf =>
    exact ⟨[], _, _, rfl, List.forall_mem_nil _, .point hf.2, fun h => hf.1 h.2⟩

/-- The longest numeral at the head of a text is in the grammar, and is read on its own. -/
theorem exists_of_scan {s : List Char} {d : Decimal} {n : Nat} (h : scan s = some (d, n)) :
    ∃ w rest, s = w ++ rest ∧ w.length = n ∧ Grammatical w ∧ scan w = some (d, w.length) := by
  obtain ⟨whole, f, text, tail, rfl, hwhole, hf, htail⟩ := exists_mantissa s
  obtain ⟨p, rest, rfl, hp, hpower⟩ := exists_power tail
  rw [scan_parts hwhole hf htail, hpower] at h
  split at h
  · cases h
  · rename_i hne
    obtain ⟨rfl, rfl⟩ := Prod.mk.inj (Option.some.inj h)
    have hlength : (whole ++ (text ++ p)).length = whole.length + text.length + p.length := by
      rw [List.length_append, List.length_append, Nat.add_assoc]
    refine ⟨whole ++ (text ++ p), rest, by simp only [List.append_assoc], hlength,
      ⟨whole ++ text, p, (List.append_assoc _ _ _).symm, hf.mantissa hwhole hne, hp⟩, ?_⟩
    rw [scan_parts hwhole hf (hp.ended text), if_neg hne, hp.powerOfTen_self, hlength]

/-- All that is in the grammar is read as a number. -/
theorem Grammatical.exists_scan {w : List Char} (h : Grammatical w) :
    ∃ d, scan w = some (d, w.length) := by
  obtain ⟨m, p, rfl, hm, hp⟩ := h
  obtain ⟨whole, f, text, rfl, hwhole, hf, hne⟩ := hm.parts
  have hread := scan_parts hwhole hf (hp.ended text)
  rw [if_neg hne, hp.powerOfTen_self, ← List.append_assoc] at hread
  exact ⟨_, by rw [hread, List.length_append, List.length_append]⟩

/-- A numeral starts with a digit, or with a point before a digit. -/
theorem scan_eq_none_iff {c : Char} {rest : List Char} : scan (c :: rest) = none ↔
    c.isDigit = false ∧ ¬(c = '.' ∧ digitRun rest ≠ []) := by
  by_cases hdigit : c.isDigit = true
  · refine iff_of_false (fun h => ?_) (by simp [hdigit])
    have hwhole : digitRun (c :: rest) ≠ [] := by
      rw [digitRun, List.takeWhile_cons_of_pos hdigit]
      exact List.cons_ne_nil _ _
    rw [scan] at h
    dsimp only at h
    rw [if_neg fun hnil => hwhole hnil.1] at h
    cases h
  · rw [Bool.not_eq_true] at hdigit
    by_cases hpoint : c = '.'
    · subst hpoint
      have hwhole : digitRun ('.' :: rest) = [] := rfl
      rw [scan]
      simp only [hwhole, List.length_nil, List.drop_zero, fractionAt_point, true_and]
      by_cases hrun : digitRun rest = []
      · exact iff_of_true (if_pos hrun) ⟨hdigit, fun h => h hrun⟩
      · refine iff_of_false (by rw [if_neg hrun]; exact Option.some_ne_none _) fun h => h.2 hrun
    · exact iff_of_true (scan_eq_none hdigit hpoint rest) ⟨hdigit, fun h => hpoint h.1⟩

private theorem negative_of_scan {s : List Char} {d : Decimal} {n : Nat}
    (h : scan s = some (d, n)) :
    d.negative = false := by
  rw [scan] at h
  dsimp only at h
  split at h
  · cases h
  · obtain ⟨rfl, -⟩ := Prod.mk.inj (Option.some.inj h)
    rfl

/-- A reader of whole texts that may have a sign reads numerals as they are. -/
theorem ofText?_of_scan {w : List Char} {d : Decimal} (h : scan w = some (d, w.length)) :
    Decimal.ofText? w = some d := by
  have hunsigned : w.head? ≠ some '-' := by
    intro hhead
    obtain ⟨rest, rfl⟩ := List.head?_eq_some_iff.mp hhead
    rw [scan_eq_none (by decide) (by decide)] at h
    cases h
  have hnegative := negative_of_scan h
  obtain ⟨negative, digits, exponent⟩ := d
  obtain rfl : negative = false := hnegative
  rw [Decimal.ofText?, decide_eq_false hunsigned]
  simp only [Bool.false_eq_true, if_false, h, if_true]

private theorem exists_scan_of_ofText? {w : List Char} {d : Decimal}
    (h : Decimal.ofText? w = some d)
    (hd : d.negative = false) : ∃ d', scan w = some (d', w.length) := by
  rw [Decimal.ofText?] at h
  cases hsign : decide (w.head? = some '-') with
  | true =>
    rw [hsign] at h
    simp only [if_true] at h
    split at h
    · split at h
      · obtain rfl := Option.some.inj h
        cases hd
      · cases h
    · cases h
  | false =>
    rw [hsign] at h
    simp only [Bool.false_eq_true, if_false] at h
    split at h
    · rename_i d' n hscan
      split at h
      · rename_i hn
        exact ⟨d', hn ▸ hscan⟩
      · cases h
    · cases h

/-- A whole text is read as a number without sign exactly if it is in the grammar. -/
theorem grammatical_iff {w : List Char} :
    Grammatical w ↔ ∃ d, d.negative = false ∧ Decimal.ofText? w = some d := by
  constructor
  · intro h
    obtain ⟨d, hd⟩ := h.exists_scan
    exact ⟨d, negative_of_scan hd, ofText?_of_scan hd⟩
  · rintro ⟨d, hnegative, hd⟩
    obtain ⟨d', hscan⟩ := exists_scan_of_ofText? hd hnegative
    obtain ⟨v, rest, hw, hlength, hgrammatical, -⟩ := exists_of_scan hscan
    have hrest : rest = [] := by
      have hsum := congrArg List.length hw
      rw [List.length_append] at hsum
      exact List.eq_nil_of_length_eq_zero (by omega)
    rwa [hw, hrest, List.append_nil]

end PriceFormula.Numeral

namespace PriceFormula.Token

/-- What a token takes of a text reads as just this token. -/
theorem writtenAs_of_find {c : Char} {rest : List Char} {t : Token} {more : Nat}
    (h : find c rest = some (t, more)) : t.WrittenAs (c :: rest.take more) := by
  cases hc : isNameStart c with
  | true =>
    rw [find_of_nameStart hc] at h
    obtain ⟨rfl, rfl⟩ := Prod.mk.inj (Option.some.inj h)
    rw [← List.prefix_iff_eq_take.mp (List.takeWhile_prefix _), WrittenAs, find_of_nameStart hc,
      List.takeWhile_idem]
  | false =>
    rcases find_of_not_nameStart hc h with ⟨d, hscan, rfl⟩ | ⟨hsign, -⟩
    · obtain ⟨w, behind, hw, hlength, -, hself⟩ := Numeral.exists_of_scan hscan
      have htake : c :: rest.take more = w := by
        rw [← List.take_succ_cons, hw, ← hlength, List.take_left]
      rw [htake]
      exact writtenAs_number hself
    · exact hsign.find_end

theorem exists_writtenAs_of_mem_scan {s : List Char} {t : Token} (h : t ∈ scan s) :
    ∃ w, t.WrittenAs w := by
  obtain ⟨text, hfound⟩ := TokenList.exists_found_of_mem_among h
  obtain ⟨c, rest, more, -, hfind⟩ := Text.Segment.find_of_found_mem_cut hfound
  exact ⟨_, writtenAs_of_find hfind⟩

end PriceFormula.Token
