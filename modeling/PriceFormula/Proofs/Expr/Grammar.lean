import PriceFormula.Proofs.Expr.Completeness
import PriceFormula.Proofs.Expr.Metered

/-! The language of expressions. A text is an expression exactly if its tokens are a phrase that
keeps the limits, and then it stands for the tree of that phrase. -/

namespace PriceFormula

def TokenList.whole? (input : TokenList) : Option (List Token) :=
  if input.ending.stray = none then some (input.tokens.map Located.token) else none

structure Phrase.Allowed (p : Phrase) : Prop where
  grammatical : p.Grammatical
  callsFit : p.CallsFit
  operators_le : p.operators ≤ operatorLimit
  nesting_le : p.nesting ≤ nestingLimit

namespace Phrase

theorem allowed_number (v : Float) : (number v).Allowed := by
  constructor <;> simp [Grammatical, CallsFit, operators, nesting]

theorem allowed_var (x : String) : (var x).Allowed := by
  constructor <;> simp [Grammatical, CallsFit, operators, nesting]

theorem allowed_negated (v : Float) : (signed .minus (number v)).Allowed := by
  constructor <;> simp [Grammatical, CallsFit, operators, nesting, rank, nestingLimit]

end Phrase

namespace Expr

private theorem ofTokens_eq_ok_iff (input : TokenList) (e : Expr) :
    ofTokens input = .ok e ↔
      ∃ p : Phrase, input.whole? = some p.tokens ∧ p.tree = e ∧ p.Allowed := by
  have hsound := Parser.downFrom_sound input.ending (nestingLimit + 1)
  have hcomplete := Parser.downFrom_complete input.ending (nestingLimit + 1)
  rw [ofTokens_eq]
  unfold TokenList.whole?
  constructor
  · intro h
    obtain ⟨c, hc, h⟩ := bind_eq_ok.mp h
    obtain ⟨⟨e₁, c₁⟩, h₁, h⟩ := bind_eq_ok.mp h
    obtain ⟨rfl, hs⟩ := Parser.settle_eq_ok.mp hc
    obtain ⟨p, hf, rfl, hadv⟩ := hsound.expression _ _ _ h₁
    simp only at h
    split at h
    · rename_i hend
      obtain rfl := Except.ok.inj h
      obtain ⟨taken, htaken, htokens⟩ := hadv.ahead
      have hend : c₁.ahead = [] := List.isEmpty_iff.mp hend
      have hlimit := hadv.limited
      rw [hadv.counted] at hlimit
      rw [hend, List.append_nil] at htaken
      refine ⟨p, ?_, rfl, hf.grammatical, hf.callsFit, by simpa using hlimit,
        Nat.le_of_lt_succ hf.nesting_lt⟩
      rw [if_pos (hadv.settled hs hend), ← htokens, ← htaken]
    · nomatch h
  · rintro ⟨p, htokens, rfl, ha⟩
    split at htokens
    · rename_i hstray
      have hs : Parser.Settled input.ending input.tokens := fun _ => hstray
      have hread := hcomplete.expression p input.tokens [] 0
        ⟨p.rank_le, ha.grammatical, ha.callsFit, Nat.lt_succ_of_le ha.nesting_le⟩
        (Option.some.inj htokens) (by simpa using ha.operators_le) (fun _ => hstray) nofun
      rw [List.append_nil] at hread
      rw [Parser.settle_eq_ok.mpr ⟨rfl, hs⟩]
      simp [hread]
    · nomatch htokens

/-- A text parses as a tree if its tokens are a phrase of this tree that keeps the limits. -/
theorem parse_eq_ok {text : String} {e : Expr} :
    parse text = .ok e ↔ ∃ p : Phrase, (TokenList.ofText text.toList).whole? = some p.tokens ∧
      p.tree = e ∧ p.Allowed := by
  rw [parse, mapError_eq_ok, ofTokens_eq_ok_iff]

/-- The parser accepts exactly the grammar within its limits: a text that is all tokens and white
space, whose tokens derive the tree, with known functions called with as many arguments as they
take, at most so many binary operators and levels nested at most so deep. -/
theorem parse_eq_ok_iff (text : String) (e : Expr) :
    parse text = .ok e ↔
      ∃ p : Phrase, (TokenList.ofText text.toList).whole? = some p.tokens ∧
        p.Grammatical ∧ p.tree = e ∧ p.CallsFit ∧
        p.operators ≤ operatorLimit ∧ p.nesting ≤ nestingLimit := by
  rw [parse_eq_ok]
  constructor
  · rintro ⟨p, ht, he, ha⟩
    exact ⟨p, ht, ha.grammatical, he, ha.callsFit, ha.operators_le, ha.nesting_le⟩
  · rintro ⟨p, ht, hg, he, hc, ho, hn⟩
    exact ⟨p, ht, he, hg, hc, ho, hn⟩

/-- The operators level by level, from the tightest to the loosest. -/
example : [.power, .multiply, .divide, .modulo, .add, .subtract, .equal, .notEqual, .identical,
    .notIdentical, .less, .lessEqual, .greater, .greaterEqual, .and, .or].map BinaryOp.level =
      [0, 1, 1, 1, 2, 2, 3, 3, 3, 3, 3, 3, 3, 3, 4, 5] := by
  decide

/-- Parsing fails for the form of a text, for a function that does not exist, or for a number of
arguments. -/
theorem parse_eq_error {text : String} {err : ExprError} (h : parse text = .error err) :
    (∃ message position, err = .malformed message position text) ∨
      (∃ name position, err = .unknownFunction name position) ∨
      ∃ function expected actual, err = .argumentCount function expected actual := by
  rw [parse] at h
  cases ht : ofTokens (.ofText text.toList) with
  | ok e =>
    rw [ht] at h
    cases h
  | error cause =>
    rw [ht] at h
    obtain rfl := Except.error.inj h
    cases cause with
    | complaint cause position => exact .inl ⟨_, _, rfl⟩
    | unknownFunction name position => exact .inr (.inl ⟨_, _, rfl⟩)
    | tooFewArguments f actual => exact .inr (.inr ⟨_, _, _, rfl⟩)
    | tooManyArguments f most actual => exact .inr (.inr ⟨_, _, _, rfl⟩)

end Expr
end PriceFormula
