import PriceFormula.Proofs.Expr.Numerals
import PriceFormula.Proofs.Formula.References
import PriceFormula.Proofs.Pricing.Fallback

/-! Numbers in place of formula text. A JSON number is written as a numeral behind an optional sign,
which is its own normal form and parses to the value of the number. -/

namespace PriceFormula

namespace Normal

private def rewritten : List Char := ['{', '}', ',', ';', ':', '&', 'c']

private theorem group_eq_self {s : List Char} (h : 'c' ∉ s) : group s = s := by
  induction s with
  | nil => rfl
  | cons c s ih =>
    rw [List.mem_cons, not_or] at h
    have hprefix : ¬constantCall <+: c :: s := by
      rintro ⟨rest, hrest⟩
      exact h.1 (List.cons.inj hrest).1
    rw [group, Text.replace_of_not_prefix hprefix, ← group, ih h.2]

private theorem form_eq_self {s : List Char} (h : ∀ c ∈ s, c ∉ rewritten) : form s = s := by
  have hnot {c : Char} (hc : c ∈ rewritten) : c ∉ s := fun hmem => h c hmem hc
  have hkept {d : Char} (hd : d ∈ rewritten) (d' : Char) :
      s.map (fun c => if c = d then d' else c) = s := by
    refine (List.map_congr_left fun c hc => if_neg ?_).trans (List.map_id' s)
    rintro rfl
    exact hnot hd hc
  have hunbraced : s.filter (fun c => c ≠ '{' ∧ c ≠ '}') = s := by
    refine List.filter_eq_self.mpr fun c hc => decide_eq_true ⟨?_, ?_⟩
    · rintro rfl
      exact hnot (by decide) hc
    · rintro rfl
      exact hnot (by decide) hc
  have hcolon := Text.Marker.mark_eq_self (hnot (by decide : ':' ∈ rewritten))
  rw [form, hcolon, Text.Entity.decode_eq_self (hnot (by decide)), respell]
  simp only [hunbraced, hkept (by decide : ',' ∈ rewritten)]
  rw [← group, group_eq_self (hnot (by decide)), hkept (by decide), hcolon]

end Normal

namespace Json.NumberParts

private theorem isDigit_or_mem_text {p : NumberParts} (hp : p.WellFormed) {c : Char}
    (hc : c ∈ p.text) :
    c.isDigit = true ∨ c ∈ ['.', 'e', '+', '-'] := by
  rcases List.mem_append.mp hc with hwhole | hc
  · exact .inl (hp.whole_digits c hwhole)
  rcases List.mem_append.mp hc with hfraction | hpower
  · cases hcase : p.fraction with
    | none =>
      rw [hcase] at hfraction
      cases hfraction
    | some digits =>
      rw [hcase] at hfraction
      rcases List.mem_cons.mp hfraction with rfl | hdigit
      · exact .inr (by decide)
      · exact .inl (hp.fraction_digits digits hcase c hdigit)
  · cases hcase : p.power with
    | none =>
      rw [hcase] at hpower
      cases hpower
    | some e =>
      rw [hcase, powerText] at hpower
      rcases List.mem_cons.mp hpower with rfl | hpower
      · exact .inr (by decide)
      rcases List.mem_cons.mp hpower with rfl | hdigit
      · right
        split <;> decide
      · exact .inl (isDigit_toDigits c hdigit)

private theorem not_rewritten_signedText {p : NumberParts} (hp : p.WellFormed) (negative : Bool) :
    ∀ c ∈ signedText negative p, c ∉ Normal.rewritten := by
  have hdigit : Normal.rewritten.all (fun d => !d.isDigit) = true := by decide
  have hsign : ['.', 'e', '+', '-'].all (fun d => d ∉ Normal.rewritten) = true := by decide
  have hplain {c : Char} (hc : c.isDigit = true ∨ c ∈ ['.', 'e', '+', '-']) :
      c ∉ Normal.rewritten := by
    rcases hc with hc | hc
    · intro hmem
      have hnot := List.all_eq_true.mp hdigit c hmem
      rw [hc] at hnot
      cases hnot
    · exact of_decide_eq_true (List.all_eq_true.mp hsign c hc)
  intro c hc
  cases negative with
  | false => exact hplain (isDigit_or_mem_text hp hc)
  | true =>
    rcases List.mem_cons.mp hc with rfl | hc
    · decide
    · exact hplain (isDigit_or_mem_text hp hc)

def signedFloat (negative : Bool) (p : NumberParts) : Float :=
  if negative then -p.decimal.toFloat else p.decimal.toFloat

/-- The tokens of a number are one numeral, behind the sign if it has one. -/
theorem whole?_signedText {p : NumberParts} (hp : p.WellFormed) (negative : Bool) :
    (TokenList.ofText (signedText negative p)).whole? =
      some (if negative then [.minus, .number p.decimal.toFloat] else [.number p.decimal.toFloat]) := by
  have hnumber (offset : Nat) :
      (TokenList.ofSegments offset (Text.Segment.cut Token.find p.text)).whole? =
        some [.number p.decimal.toFloat] := by
    have hwhole := TokenList.whole?_ofSegments_spaced
      (.cons (Token.writtenAs_number (Numeral.scan_text hp)) .nil) offset
    rwa [List.intercalate_singleton] at hwhole
  cases negative with
  | false => exact hnumber 0
  | true =>
    rw [signedText, if_pos rfl, TokenList.ofText,
      Text.Segment.cut_of_found (rfl : Token.find '-' p.text = some (.minus, 0)),
      TokenList.whole?_ofSegments_found, List.drop_zero, hnumber]
    rfl

/-- A number parses as its float. A sign in front of it becomes the negation of it. -/
theorem parse_signedText {p : NumberParts} (hp : p.WellFormed) (negative : Bool) :
    ∃ e, Expr.parse (String.ofList (signedText negative p)) = .ok e ∧
      ∀ b, e.eval b = .ok (.number (signedFloat negative p)) := by
  have htokens := whole?_signedText hp negative
  rw [← String.toList_ofList (l := signedText negative p)] at htokens
  cases negative with
  | false =>
    have hphrase : (Phrase.number p.decimal.toFloat).tokens = [.number p.decimal.toFloat] := by
      rw [Phrase.tokens]
    rw [if_neg Bool.false_ne_true, ← hphrase] at htokens
    refine ⟨_, Expr.parse_eq_ok.mpr ⟨_, htokens, rfl, Phrase.allowed_number _⟩, fun b => ?_⟩
    rw [Phrase.tree, Expr.eval_number]
    rfl
  | true =>
    have hphrase : (Phrase.signed .minus (.number p.decimal.toFloat)).tokens =
        [.minus, .number p.decimal.toFloat] := by
      rw [Phrase.tokens, Phrase.tokens]
      rfl
    rw [if_pos rfl, ← hphrase] at htokens
    refine ⟨_, Expr.parse_eq_ok.mpr ⟨_, htokens, rfl, Phrase.allowed_negated _⟩, fun b => ?_⟩
    rw [Phrase.tree, Phrase.tree, PrefixSign.apply, Expr.eval_unary, Expr.eval_number]
    rfl

end Json.NumberParts

private theorem Json.exists_numeral {j : Json} {v : Float} (hj : j.number? = some v)
    (hv : v.isFinite = true) :
    ∃ text negative p, j.numeral? = some text ∧ NumberParts.WellFormed p ∧
      text.toList = NumberParts.signedText negative p ∧ NumberParts.signedFloat negative p = v := by
  cases j with
  | integer n =>
    obtain rfl := Option.some.inj hj
    refine ⟨toString n, _, _, rfl, wellFormed_wholeParts n.natAbs, writtenInteger_eq n, ?_⟩
    have hdigits : (wholeParts n.natAbs).decimal.toFloat = Float.ofNat n.natAbs := by
      rw [NumberParts.decimal, wholeParts, Decimal.ofRuns]
      simp only [Option.getD_none, List.append_nil, Nat.ofDigitChars_ten_toDigits]
      rfl
    rw [NumberParts.signedFloat, hdigits]
    cases n with
    | ofNat n => rfl
    | negSucc n =>
      rw [decide_eq_true (Int.negSucc_lt_zero n)]
      rfl
  | float x =>
    obtain rfl := Option.some.inj hj
    obtain ⟨p, hlays, hfloat, htext⟩ := exists_writtenFloat_signed hv
    rw [writtenFloat, if_pos hv] at htext
    refine ⟨_, _, p, rfl, hlays.wellFormed, htext, ?_⟩
    rw [NumberParts.signedFloat, hfloat]
    exact Number.signed_abs hv
  | _ => cases hj

/-- A formula text that parses and is the same number under all bindings. -/
def FormulaText.IsConstant (t : FormulaText) (v : Float) : Prop :=
  ∃ e, Expr.parse t.normal = .ok e ∧ ∀ b, e.eval b = .ok (.number v)

private theorem FormulaText.IsConstant.price {t : FormulaText} {v : Float} (h : t.IsConstant v)
    (b : Bindings) : t.price b = asPrice v := by
  obtain ⟨e, hparse, heval⟩ := h
  rw [price_eq, outcome, hparse, ok_bind, heval]
  rfl

private theorem Formula.not_mem_references {f : Formula} (h : ∀ t ∈ f.texts, '{' ∉ t.source.toList)
    (x : String) : x ∉ f.references := by
  intro hx
  obtain ⟨name, hname, -⟩ := Reference.mem_namesIn.mp hx
  have hbrace : '{' ∉ f.searchedText.toList := by
    rw [toList_searchedText]
    intro hmem
    obtain ⟨t, ht, hsource⟩ := List.mem_flatMap.mp hmem
    exact h t ht hsource
  have hnone := Reference.occurrences_append hbrace []
  rw [List.append_nil] at hnone
  rw [hnone] at hname
  cases hname

namespace Case

private theorem eq_of_ofLine? {line : Json} {c : Case} (h : ofLine? line = some c) :
    c.result = .ofStored (fieldText line "then") ∧
      ((fieldText line "if").toList.all Text.isBlank = false →
        c.condition = .ofStored (fieldText line "if")) := by
  obtain ⟨kind, -, hcase⟩ := Option.bind_eq_some_iff.mp h
  split at hcase
  · obtain rfl := Option.some.inj hcase
    refine ⟨rfl, fun hblank => ?_⟩
    simp only [hblank, Bool.false_eq_true, and_false, if_false]
  · cases hcase

private theorem ofLine?_of_true {line : Json}
    (htype : line.member? "type" = some (.string "condition"))
    (hif : line.member? "if" = some (.string "true")) :
    ofLine? line = some (.ofTexts "true" (fieldText line "then")) := by
  have htrue : fieldText line "if" = "true" := by rw [fieldText, hif]
  have hkind : ¬("condition" = "else" ∧ "true".toList.all Text.isBlank = true) :=
    fun h => absurd h.1 (by decide)
  rw [ofLine?_of_type htype, if_pos (.inl rfl), htrue, if_neg hkind]

section Number
variable {line j : Json} {v : Float} (hj : j.number? = some v) (hv : v.isFinite = true)
  {field : String} (hfield : line.member? field = some j)
include hj hv hfield

private theorem exists_fieldText : ∃ negative p, Json.NumberParts.WellFormed p ∧
    (fieldText line field).toList = Json.NumberParts.signedText negative p ∧
      Json.NumberParts.signedFloat negative p = v := by
  obtain ⟨text, negative, p, htext, hp, hwritten, hvalue⟩ := Json.exists_numeral hj hv
  have hfieldText : fieldText line field = text := by
    cases j with
    | string s => cases hj
    | _ => simp only [fieldText, hfield, htext, Option.getD_some]
  exact ⟨negative, p, hp, hfieldText ▸ hwritten, hvalue⟩

private theorem isConstant_fieldText :
    (FormulaText.ofStored (fieldText line field)).IsConstant v := by
  obtain ⟨negative, p, hp, hwritten, rfl⟩ := exists_fieldText hj hv hfield
  have hnormal : (FormulaText.ofStored (fieldText line field)).normal =
      String.ofList (Json.NumberParts.signedText negative p) := by
    rw [FormulaText.ofStored, normalForm, hwritten,
      Normal.form_eq_self (Json.NumberParts.not_rewritten_signedText hp negative)]
  obtain ⟨e, hparse, heval⟩ := Json.NumberParts.parse_signedText hp negative
  exact ⟨e, hnormal ▸ hparse, heval⟩

private theorem fieldText_not_blank : (fieldText line field).toList.all Text.isBlank = false := by
  obtain ⟨negative, p, hp, hwritten, -⟩ := exists_fieldText hj hv hfield
  obtain ⟨c, s, htext, hdigit⟩ := hp.exists_text_eq
  have hblank : Text.isBlank c = false := by
    simp only [Char.isDigit, Bool.and_eq_true, decide_eq_true_eq, ge_iff_le, UInt32.le_iff_toNat_le]
      at hdigit
    have hrange : 48 ≤ c.toNat ∧ c.toNat ≤ 57 := hdigit
    simp only [Text.isBlank, Bool.or_eq_false_iff, Bool.and_eq_false_iff, decide_eq_false_iff_not]
    omega
  rw [hwritten, Json.NumberParts.signedText, htext]
  cases negative with
  | false => rw [if_neg Bool.false_ne_true, List.all_cons, hblank, Bool.false_and]
  | true => rfl

private theorem brace_not_mem_source :
    '{' ∉ (FormulaText.ofStored (fieldText line field)).source.toList := by
  obtain ⟨negative, p, hp, hwritten, -⟩ := exists_fieldText hj hv hfield
  have hplain := Json.NumberParts.not_rewritten_signedText hp negative
  rw [FormulaText.ofStored, Text.markColons, String.toList_ofList, hwritten,
    Text.Marker.mark_eq_self fun hmem => hplain _ hmem (by decide)]
  exact fun hmem => hplain _ hmem (by decide)

end Number
end Case

namespace Pricing

private theorem isReady_of_no_brace {f : StoredFormula} {formula : Formula}
    (hf : Formula.ofStored f = .ok formula) (h : ∀ t ∈ formula.texts, '{' ∉ t.source.toList)
    (s : Supplied) : (ofStored f s).isReady = true :=
  isReady_iff.mpr ((BoundFormula.ofStored_ok_iff hf).mpr fun x hx =>
    absurd hx (Formula.not_mem_references h x))

private theorem price_of_true {line : Json} {result : String}
    (hcase : Case.ofLine? line = some (.ofTexts "true" result)) (before after : List Json)
    {s : Supplied} (hready : (ofStored (.ofLines (before ++ line :: after)) s).isReady = true)
    (hbefore : ∀ d ∈ before.filterMap Case.ofLine?, d.settles (.ofSupplied s) = false) :
    (ofStored (.ofLines (before ++ line :: after)) s).price =
      (FormulaText.ofStored result).price (.ofSupplied s) := by
  rw [price_of_isReady (Formula.ofStored_ofLines _) hready, List.filterMap_append,
    List.filterMap_cons_some hcase]
  refine (Case.firstPrice_append_of_none (Case.settles_of_true _ _) hbefore _).trans ?_
  rw [Case.settledPrice]
  simp only [Case.ofTexts, Case.outcome_true]

/-- A JSON number keeps its value in a formula. As a condition or a result of a case, any number
parses and is that number under all bindings, down to the sign of zero. As the result of a line whose
condition is `true` it is the price, if a price may be this number: on its own for all supplied
values, and among other lines as soon as the formula is ready and no case before it settles the
search. -/
theorem price_of_number {line : Json} {c : Case} (hline : Case.ofLine? line = some c) {j : Json}
    {v : Float} (hj : j.number? = some v) (hv : v.isFinite = true) :
    (line.member? "if" = some j → c.condition.IsConstant v) ∧
    (line.member? "then" = some j → c.result.IsConstant v) ∧
    (line.member? "type" = some (.string "condition") →
      line.member? "if" = some (.string "true") → line.member? "then" = some j →
      (∀ s : Supplied, (ofStored (.ofLines [line]) s).price = asPrice v) ∧
      ∀ (before after : List Json) (s : Supplied),
        (ofStored (.ofLines (before ++ line :: after)) s).isReady = true →
        (∀ d ∈ before.filterMap Case.ofLine?, d.settles (.ofSupplied s) = false) →
        (ofStored (.ofLines (before ++ line :: after)) s).price = asPrice v) := by
  obtain ⟨hresult, hcondition⟩ := Case.eq_of_ofLine? hline
  refine ⟨fun hif => ?_, fun hthen => ?_, fun htype hif hthen => ?_⟩
  · rw [hcondition (Case.fieldText_not_blank hj hv hif)]
    exact Case.isConstant_fieldText hj hv hif
  · rw [hresult]
    exact Case.isConstant_fieldText hj hv hthen
  · have hcase := Case.ofLine?_of_true htype hif
    have hprice (before after : List Json) (s : Supplied)
        (hready : (ofStored (.ofLines (before ++ line :: after)) s).isReady = true)
        (hbefore : ∀ d ∈ before.filterMap Case.ofLine?, d.settles (.ofSupplied s) = false) :
        (ofStored (.ofLines (before ++ line :: after)) s).price = asPrice v :=
      (price_of_true hcase before after hready hbefore).trans
        ((Case.isConstant_fieldText hj hv hthen).price _)
    refine ⟨fun s => hprice [] [] s ?_ (by simp), hprice⟩
    refine isReady_of_no_brace (Formula.ofStored_ofLines _) (fun t ht => ?_) s
    rw [List.nil_append, List.filterMap_cons_some hcase] at ht
    have ht : t = .ofStored "true" ∨ t = .ofStored (Case.fieldText line "then") := by
      simpa [Formula.texts, Case.ofTexts] using ht
    rcases ht with rfl | rfl
    · decide
    · exact Case.brace_not_mem_source hj hv hthen

/-- A negative zero as a condition, an integer that is no float, and a result with a negative power
of ten. -/
theorem price_of_small_number :
    let signed := Json.object [("if", .float (-0.0)), ("then", .integer (-9007199254740993)),
      ("type", .string "else")]
    let small := Json.object [("if", .string "true"), ("then", .float 1.5e-7),
      ("type", .string "condition")]
    (∃ c, Case.ofLine? signed = some c ∧ c.condition.IsConstant (-0.0) ∧
      c.result.IsConstant (-9007199254740992)) ∧
      ∀ s : Supplied, (ofStored (.ofLines [small]) s).price = .ok 1.5e-7 := by
  intro signed small
  have hzero : (Json.float (-0.0)).number? = some (-0.0) := rfl
  have hodd : (Json.integer (-9007199254740993)).number? = some (-9007199254740992) := by
    decide +kernel
  have hsmall : (Json.float 1.5e-7).number? = some 1.5e-7 := rfl
  obtain ⟨c, hsigned⟩ : ∃ c, Case.ofLine? signed = some c := ⟨_, rfl⟩
  obtain ⟨d, hplain⟩ : ∃ d, Case.ofLine? small = some d := ⟨_, rfl⟩
  obtain ⟨hcondition, -⟩ := price_of_number hsigned hzero (by decide +kernel)
  obtain ⟨-, hresult, -⟩ := price_of_number hsigned hodd (by decide +kernel)
  obtain ⟨-, -, hprice⟩ := price_of_number hplain hsmall (by decide +kernel)
  refine ⟨⟨c, hsigned, hcondition rfl, hresult rfl⟩, fun s => ?_⟩
  rw [(hprice rfl rfl rfl).1 s]
  decide +kernel

end Pricing
end PriceFormula
