import PriceFormula.Proofs.Expr.Minimal
import PriceFormula.Proofs.Expr.NumeralGrammar

/-! Printing undoes parsing: whatever text an expression was parsed from, its minimal texts parse to
the same expression and stay within the limits that the text kept. -/

namespace PriceFormula

private theorem Function.writtenAs_name (f : Function) :
    (Token.identifier f.name).WrittenAs f.name.toList := by
  cases f <;> decide +kernel

namespace Phrase

private theorem mem_separated {t : Token} {tss : List (List Token)} (h : t ∈ separated tss) :
    t = .comma ∨ ∃ ts ∈ tss, t ∈ ts := by
  cases tss with
  | nil => nomatch h
  | cons first rest =>
    rw [separated, List.mem_append, List.mem_flatMap] at h
    rcases h with h | ⟨ts, hts, h⟩
    · exact .inr ⟨first, List.mem_cons_self, h⟩
    · rcases List.mem_cons.mp h with rfl | h
      · exact .inl rfl
      · exact .inr ⟨ts, List.mem_cons_of_mem _ hts, h⟩

private theorem mem_separated_of_mem {t : Token} {ts : List Token} {tss : List (List Token)}
    (hts : ts ∈ tss) (h : t ∈ ts) : t ∈ separated tss := by
  cases tss with
  | nil => nomatch hts
  | cons first rest =>
    rw [separated, List.mem_append, List.mem_flatMap]
    rcases List.mem_cons.mp hts with rfl | hts
    · exact .inl h
    · exact .inr ⟨ts, hts, List.mem_cons_of_mem _ h⟩

private def Writable (p : Phrase) : Prop := ∀ t ∈ p.tokens, ∃ w, t.WrittenAs w

private theorem Writable.within {p : Phrase} (h : p.Writable) {bound : Nat} :
    (p.within bound).Writable := by
  intro t ht
  rcases mem_tokens_within ht with ht | rfl | rfl
  · exact h t ht
  · exact ⟨_, Token.writtenAs_text rfl⟩
  · exact ⟨_, Token.writtenAs_text rfl⟩

/-- The minimal phrase has no tokens that cannot be written: its numbers and variables stand in
every phrase of the tree, and its other tokens are words and signs. -/
private theorem Writable.minimal {p : Phrase} (hfit : p.CallsFit) (h : p.Writable) :
    p.tree.minimal.Writable := by
  induction p with
  | number v => rw [tree, Expr.minimal]; exact h
  | boolean b => rw [tree, Expr.minimal]; exact h
  | var x => rw [tree, Expr.minimal]; exact h
  | parens p ih =>
    rw [CallsFit] at hfit
    rw [Writable, tokens] at h
    rw [tree]
    exact ih hfit fun t ht => h t (by simp [ht])
  | call x ps ih =>
    rw [CallsFit] at hfit
    rw [Writable, tokens] at h
    obtain ⟨⟨f, hf, -⟩, hps⟩ := hfit
    have hsign {t : Token} (ht : t.isWord = true) : ∃ w, t.WrittenAs w :=
      ⟨_, Token.writtenAs_text ht⟩
    rw [tree, Expr.minimal, ← hf, Writable, tokens]
    simp only [List.forall_mem_cons, List.forall_mem_append]
    refine ⟨⟨_, f.writtenAs_name⟩, hsign rfl, fun t ht => ?_, hsign rfl, by simp⟩
    rcases mem_separated ht with rfl | ⟨ts, hts, ht⟩
    · exact hsign rfl
    · simp only [List.map_map, List.mem_map, Function.comp_apply] at hts
      obtain ⟨p, hp, rfl⟩ := hts
      refine ih p hp (hps p hp) (fun u hu => h u ?_) t ht
      have hargument := mem_separated_of_mem (List.mem_map_of_mem hp) hu
      simp [hargument]
  | signed s p ih =>
    rw [CallsFit] at hfit
    rw [Writable, tokens] at h
    have hoperand := ih hfit fun t ht => h t (List.mem_cons_of_mem _ ht)
    rw [tree]
    cases s with
    | plus => exact hoperand
    | minus | not =>
      rw [PrefixSign.apply, Expr.minimal, Writable, tokens, List.forall_mem_cons]
      exact ⟨⟨_, Token.writtenAs_text rfl⟩, hoperand.within⟩
  | binary op l r ihl ihr =>
    rw [CallsFit] at hfit
    rw [Writable, tokens] at h
    have hleft := ihl hfit.1 fun t ht => h t (List.mem_append_left _ ht)
    have hright := ihr hfit.2 fun t ht => h t (by simp [ht])
    rw [tree, Expr.minimal, Writable, tokens, List.forall_mem_append, List.forall_mem_cons]
    exact ⟨hleft.within, h _ (by simp), hright.within⟩

end Phrase

namespace Expr

/-- The text prints the expression: parentheses stand only where an operand is looser than its place
allows, single spaces stand between the tokens, and every token is written in some way that reads
as it, numbers as any numeral of their value. -/
def MinimalText (e : Expr) (text : String) : Prop :=
  ∃ ws, List.Forall₂ Token.WrittenAs e.minimal.tokens ws ∧ text.toList = [' '].intercalate ws

/-- Printing undoes parsing. -/
theorem parse_minimalText {text : String} {e : Expr} (h : parse text = .ok e) :
    (∃ s, e.MinimalText s) ∧ (∀ s, e.MinimalText s → parse s = .ok e) ∧
      ∀ p : Phrase, p.Grammatical → p.tree = e →
        e.minimal.nesting ≤ p.nesting ∧ e.minimal.operators = p.operators := by
  obtain ⟨p, htokens, rfl, hgrammatical, hfit, hoperators, hnesting⟩ := parse_eq_ok.mp h
  have hcalls := Phrase.callsFit_tree hfit
  refine ⟨?_, fun s hs => ?_, fun q hq htree => ?_⟩
  · have hwritable : p.Writable := fun t ht => by
      rw [TokenList.eq_scan_of_whole? htokens] at ht
      exact Token.exists_writtenAs_of_mem_scan ht
    obtain ⟨ws, hws⟩ := Token.exists_forall₂_writtenAs (hwritable.minimal hfit)
    exact ⟨String.ofList ([' '].intercalate ws), ws, hws, String.toList_ofList⟩
  · obtain ⟨ws, hws, htext⟩ := hs
    refine parse_eq_ok.mpr ⟨p.tree.minimal, ?_, tree_minimal hcalls, grammatical_minimal _,
      callsFit_minimal hcalls, ?_, ?_⟩
    · rw [htext, TokenList.whole?_spaced hws]
    · rw [Phrase.operators_minimal]
      exact hoperators
    · exact Nat.le_trans (Phrase.nesting_minimal_le hgrammatical) hnesting
  · rw [← htree]
    exact ⟨Phrase.nesting_minimal_le hq, Phrase.operators_minimal q⟩

/-- Redundant parentheses and plus signs go, as do other spellings of words; the parentheses that
the grammar needs stay. -/
theorem parse_minimalText_of_redundant :
    ∃ e, parse "((a)) - (b - c) * + (+d) ** -(e ** f) && !(x or MAX((y), z))" = .ok e ∧
      e.MinimalText "a - ( b - c ) * d ** - ( e ** f ) and not ( x or max ( y , z ) )" ∧
      parse "a - ( b - c ) * d ** - ( e ** f ) and not ( x or max ( y , z ) )" = .ok e := by
  let e : Expr := .binary .and
    (.binary .subtract (.var "a")
      (.binary .multiply (.binary .subtract (.var "b") (.var "c"))
        (.binary .power (.var "d") (.unary .negate (.binary .power (.var "e") (.var "f"))))))
    (.unary .not (.binary .or (.var "x") (.call "max" [.var "y", .var "z"])))
  have htokens : e.minimal.tokens = [.identifier "a", .minus, .openParen, .identifier "b", .minus,
      .identifier "c", .closeParen, .star, .identifier "d", .power, .minus, .openParen,
      .identifier "e", .power, .identifier "f", .closeParen, .and, .not, .openParen,
      .identifier "x", .or, .identifier "max", .openParen, .identifier "y", .comma,
      .identifier "z", .closeParen, .closeParen] := by
    cbv
  have htext : e.MinimalText
      "a - ( b - c ) * d ** - ( e ** f ) and not ( x or max ( y , z ) )" := by
    refine ⟨e.minimal.tokens.map fun t => t.text.toList, ?_, ?_⟩
    · rw [htokens]
      decide +kernel
    · rw [htokens]
      decide +kernel
  have hparse : parse "((a)) - (b - c) * + (+d) ** -(e ** f) && !(x or MAX((y), z))" = .ok e := by
    cbv
  exact ⟨e, hparse, htext, (parse_minimalText hparse).2.1 _ htext⟩

end Expr
end PriceFormula
