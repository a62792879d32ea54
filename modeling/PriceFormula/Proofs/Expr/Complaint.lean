import PriceFormula.Proofs.Expr.Offsets
import PriceFormula.Proofs.Expr.Refusal

/-! Messages about the form of a text. They name the offset of the first token with which no phrase
goes on, or of the first character with which no token starts. -/

namespace PriceFormula

namespace Complaint

def opening : Complaint → String
  | stray _ => "Unexpected character \""
  | unexpected _ => "Unexpected token \""
  | expected _ _ => "Expected \""
  | nestedTooDeeply => "Expression is nested too deeply"
  | tooManyOperators => "Expression has too many operators"

variable {cause : Complaint}

private theorem exists_message_eq (cause : Complaint) :
    ∃ more, cause.message = cause.opening ++ more := by
  cases cause with
  | stray d => exact ⟨String.singleton d ++ "\"", String.append_assoc⟩
  | unexpected found => exact ⟨shown found ++ "\"", String.append_assoc⟩
  | expected wanted found =>
    refine ⟨wanted.text ++ ("\" but found \"" ++ (shown found ++ "\"")), ?_⟩
    change "Expected \"" ++ wanted.text ++ "\" but found \"" ++ shown found ++ "\"" =
      "Expected \"" ++ _
    simp only [String.append_assoc]
  | nestedTooDeeply => exact ⟨"", String.append_empty.symm⟩
  | tooManyOperators => exact ⟨"", String.append_empty.symm⟩

/-- A message that begins with some words begins as those do. -/
theorem opening_of_words {words : List Char} (h : words <+: cause.message.toList) :
    words <+: cause.opening.toList ∨ cause.opening.toList <+: words := by
  obtain ⟨more, hmessage⟩ := cause.exists_message_eq
  rw [hmessage, String.toList_append] at h
  exact List.prefix_or_prefix_of_prefix h (List.prefix_append _ _)

private theorem eq_stray (h : "Unexpected character".toList <+: cause.message.toList) :
    ∃ d, cause = stray d := by
  have hopening := opening_of_words h
  cases cause with
  | stray d => exact ⟨d, rfl⟩
  | unexpected | expected | nestedTooDeeply | tooManyOperators =>
    simp only [opening] at hopening
    exact absurd hopening (by decide)

private theorem eq_unexpected_or_expected (h : "Unexpected token".toList <+: cause.message.toList ∨
    "Expected".toList <+: cause.message.toList) :
    (∃ found, cause = unexpected found) ∨ ∃ wanted found, cause = expected wanted found := by
  have hopening := h.imp opening_of_words opening_of_words
  cases cause with
  | unexpected found => exact .inl ⟨found, rfl⟩
  | expected wanted found => exact .inr ⟨wanted, found, rfl⟩
  | stray | nestedTooDeeply | tooManyOperators =>
    simp only [opening] at hopening
    exact absurd hopening (by decide)

end Complaint

namespace Expr
open TokenList

/-- At a byte offset of a text stands the first token with which no phrase goes on, or its end,
where none ends. The tokens before begin a phrase. -/
def RefusedAt (text : String) (position : Nat) : Prop :=
  let input := TokenList.ofText text.toList
  Phrase.Viable (input.before position) ∧ ∃ front rest, Text.CutAt text position front rest ∧
    ((∃ t stop c tail more, ⟨t, position, stop⟩ ∈ input.tokens ∧ rest.toList = c :: tail ∧
        Token.find c tail = some (t, more) ∧ ¬Phrase.Viable (input.before position ++ [t])) ∨
      rest = "" ∧ input.whole? = some (input.before position) ∧
        ¬Phrase.Sentence (input.before position))

/-- At a byte offset of a text stands a character with which no token starts. The tokens before
begin a phrase. -/
def StrayAt (text : String) (position : Nat) : Prop :=
  let input := TokenList.ofText text.toList
  Phrase.Viable (input.before position) ∧ ∃ front rest c tail, Text.CutAt text position front rest ∧
    rest.toList = c :: tail ∧ Token.find c tail = none ∧ Text.isBlank c = false

section Positions
variable {text : String}

private theorem refusedAt_position {s : Progress} {c : Cursor}
    (h : Parser.Reached (ofText text.toList) s c) (hs : s.Refuses c.token?) :
    RefusedAt text (Parser.position (ofText text.toList).ending c) := by
  obtain ⟨taken, htokens, hviable, htoken, hend⟩ := h.viable hs
  have hbefore := before_position htokens
  refine ⟨by rw [hbefore]; exact hviable, ?_⟩
  rw [hbefore]
  cases hahead : c.ahead with
  | nil =>
    have hstray := h.settled hahead
    have hposition : Parser.position (ofText text.toList).ending c =
        (ofText text.toList).ending.position := by
      rw [Parser.position, hahead]
    have hnone : c.token? = none := by
      rw [Cursor.token?, hahead]
      rfl
    obtain ⟨front, rest, htext, hfront, hrest, -⟩ := exists_text_of_ending text.toList 0 rfl
    obtain rfl := hrest hstray
    refine ⟨_, _, Text.cutAt_of_toList htext (hposition.trans hfront), .inr ⟨rfl, ?_, hend hnone⟩⟩
    rw [whole?, if_pos hstray, htokens, hahead, List.append_nil]
  | cons l later =>
    rw [hahead] at htokens
    have hposition : Parser.position (ofText text.toList).ending c = l.start := by
      rw [Parser.position, hahead]
    have ht : c.token? = some l.token := Parser.token?_eq_some.mpr ⟨l, later, hahead, rfl⟩
    obtain ⟨front, d, tail, more, htext, hstart, hfind⟩ := exists_text_of_tokens htokens
    refine ⟨_, _, Text.cutAt_of_toList htext (hposition.trans hstart), .inl ⟨l.token, l.stop, d,
      tail, more, ?_, String.toList_ofList, hfind, htoken l.token ht⟩⟩
    rw [hposition, htokens]
    exact List.mem_append_right _ List.mem_cons_self

private theorem strayAt_position {d : Char} {s : Progress}
    (hstray : (ofText text.toList).ending.stray = some d)
    (hrun : (Progress.operand []).run ((ofText text.toList).tokens.map Located.token) = some s) :
    StrayAt text (ofText text.toList).ending.position := by
  have hbefore : (ofText text.toList).before (ofText text.toList).ending.position =
      (ofText text.toList).tokens.map Located.token :=
    before_position (c := ⟨[], 0⟩) (List.append_nil _).symm
  obtain ⟨front, rest, htext, hfront, -, hrest⟩ := exists_text_of_ending text.toList 0 rfl
  obtain ⟨tail, rfl, hfind, hblank⟩ := hrest d hstray
  refine ⟨?_, _, _, d, tail, Text.cutAt_of_toList htext hfront, String.toList_ofList, hfind, hblank⟩
  rw [hbefore]
  exact Phrase.viable_iff.mpr ⟨s, hrun⟩

end Positions

/-- A text is refused for its form at the first place where it goes wrong. Where a token is not
expected, or another one is, the tokens before it begin a phrase and no phrase has it behind them;
at the end of the text, they are no phrase. Where a character is not expected, the tokens before it
begin a phrase and none starts with it. -/
theorem position_of_parse_malformed {text message shown : String} {position : Nat}
    (h : parse text = .error (.malformed message position shown)) :
    (("Unexpected token".toList <+: message.toList ∨ "Expected".toList <+: message.toList) →
        RefusedAt text position) ∧
      ("Unexpected character".toList <+: message.toList → StrayAt text position) := by
  have hpoints := ofTokens_points (.ofText text.toList)
  rw [parse] at h
  cases hparse : ofTokens (.ofText text.toList) with
  | ok e =>
    rw [hparse] at h
    cases h
  | error err =>
    rw [hparse] at h hpoints
    have herr := Except.error.inj h
    cases err with
    | unknownFunction name start => cases herr
    | tooFewArguments f actual => cases herr
    | tooManyArguments f most actual => cases herr
    | complaint cause start =>
      obtain ⟨rfl, rfl, rfl⟩ := ExprError.malformed.inj herr
      constructor
      · intro hmessage
        rcases cause.eq_unexpected_or_expected hmessage with ⟨found, rfl⟩ | ⟨wanted, found, rfl⟩
        · obtain ⟨s, c, hreached, hrefuses, rfl⟩ := hpoints
          exact refusedAt_position hreached hrefuses
        · obtain ⟨s, c, hreached, hrefuses, rfl⟩ := hpoints
          exact refusedAt_position hreached hrefuses
      · intro hmessage
        obtain ⟨d, rfl⟩ := cause.eq_stray hmessage
        obtain ⟨hstray, rfl, s, hrun⟩ := hpoints
        exact strayAt_position hstray hrun

private theorem parse_of_complaint (cause : Complaint) {text : String} {position : Nat}
    (h : ofTokens (.ofText text.toList) = .error (.complaint cause position)) :
    parse text = .error (.malformed cause.message position text) := by
  rw [parse, h]
  rfl

/-- An operand where the call must go on or close, a call that is not closed, and a character that
is in no token. -/
theorem position_of_parse_malformed_call :
    let operand := "min(a, b c)"
    let expected := "Expected \")\" but found \"c\""
    let unclosed := "(b - max(a, "
    let unexpected := "Unexpected token \"end of expression\""
    let amount := "-a * b + $"
    let stray := "Unexpected character \"$\""
    (parse operand = .error (.malformed expected 9 operand) ∧
      "Expected".toList <+: expected.toList ∧ RefusedAt operand 9) ∧
    (parse unclosed = .error (.malformed unexpected 12 unclosed) ∧
      "Unexpected token".toList <+: unexpected.toList ∧ RefusedAt unclosed 12) ∧
    (parse amount = .error (.malformed stray 9 amount) ∧
      "Unexpected character".toList <+: stray.toList ∧ StrayAt amount 9) := by
  intro operand expected unclosed unexpected amount stray
  obtain ⟨hoperand, hunclosed, hamount⟩ :
      parse operand = .error (.malformed expected 9 operand) ∧
      parse unclosed = .error (.malformed unexpected 12 unclosed) ∧
      parse amount = .error (.malformed stray 9 amount) := by
    refine ⟨parse_of_complaint (.expected .closeParen (some (.identifier "c"))) ?_,
      parse_of_complaint (.unexpected none) ?_, parse_of_complaint (.stray '$') ?_⟩
    · cbv
    · cbv
    · cbv
  have hexpected : "Expected".toList <+: expected.toList := by decide
  have hunexpected : "Unexpected token".toList <+: unexpected.toList := by decide
  have hstray : "Unexpected character".toList <+: stray.toList := by decide
  exact ⟨⟨hoperand, hexpected, (position_of_parse_malformed hoperand).1 (.inr hexpected)⟩,
    ⟨hunclosed, hunexpected, (position_of_parse_malformed hunclosed).1 (.inl hunexpected)⟩,
    ⟨hamount, hstray, (position_of_parse_malformed hamount).2 hstray⟩⟩

end Expr
end PriceFormula
