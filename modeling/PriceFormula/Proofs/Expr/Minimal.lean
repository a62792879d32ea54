import PriceFormula.Proofs.Expr.Checked

/-! Phrases with no more parentheses than the grammar needs. Every tree has such a phrase, and no
phrase of the tree nests less deeply. -/

namespace PriceFormula

def BinaryOp.leftRank (op : BinaryOp) : Nat := if op = .power then 1 else op.level + 2

def BinaryOp.rightRank (op : BinaryOp) : Nat := if op = .power then 2 else op.level + 1

namespace Phrase

theorem grammatical_binary {op : BinaryOp} {l r : Phrase} :
    (binary op l r).Grammatical ↔
      (l.rank ≤ op.leftRank ∧ r.rank ≤ op.rightRank) ∧ l.Grammatical ∧ r.Grammatical := by
  rw [Grammatical, BinaryOp.leftRank, BinaryOp.rightRank]
  split <;> rfl

def within (bound : Nat) (p : Phrase) : Phrase := if p.rank ≤ bound then p else .parens p

section Within
variable {bound : Nat} {p : Phrase}

private theorem within_of_le (h : p.rank ≤ bound) : p.within bound = p := if_pos h

private theorem within_loosest (p : Phrase) :
    p.within (Parser.loosest + 2) = p := within_of_le p.rank_le

private theorem rank_within : (p.within bound).rank ≤ bound := by
  rw [within]
  split
  · assumption
  · exact Nat.zero_le bound

private theorem tree_within : (p.within bound).tree = p.tree := by
  rw [within]
  split
  · rfl
  · rw [tree]

private theorem grammatical_within (h : p.Grammatical) : (p.within bound).Grammatical := by
  rw [within]
  split
  · exact h
  · rw [Grammatical]
    exact h

private theorem callsFit_within (h : p.CallsFit) : (p.within bound).CallsFit := by
  rw [within]
  split
  · exact h
  · rw [CallsFit]
    exact h

private theorem operators_within : (p.within bound).operators = p.operators := by
  rw [within]
  split
  · rfl
  · rw [operators]

private theorem nesting_within_le : (p.within bound).nesting ≤ p.nesting + 1 := by
  rw [within]
  split
  · exact Nat.le_succ _
  · exact Nat.le_of_eq (by rw [nesting])

theorem mem_tokens_within {t : Token} (h : t ∈ (p.within bound).tokens) :
    t ∈ p.tokens ∨ t = .openParen ∨ t = .closeParen := by
  rw [within] at h
  split at h
  · exact .inl h
  · rw [tokens] at h
    simp only [List.mem_cons, List.mem_append, List.not_mem_nil, or_false] at h
    rcases h with h | h | h
    · exact .inr (.inl h)
    · exact .inl h
    · exact .inr (.inr h)

end Within
end Phrase

def UnaryOp.sign : UnaryOp → PrefixSign
  | negate => .minus
  | not => .not

private theorem UnaryOp.apply_sign (op : UnaryOp) (e : Expr) : op.sign.apply e = .unary op e := by
  cases op <;> rfl

namespace Expr

/-- The phrase of a tree with parentheses only where an operand is looser than its place allows, and
without plus signs. -/
def minimal : Expr → Phrase
  | number v => .number v
  | boolean b => .boolean b
  | var x => .var x
  | binary op l r => .binary op (l.minimal.within op.leftRank) (r.minimal.within op.rightRank)
  | unary op e => .signed op.sign (e.minimal.within 1)
  | call name es => .call name (es.map fun e => e.minimal)

theorem grammatical_minimal (e : Expr) : e.minimal.Grammatical := by
  induction e with
  | number v => rw [minimal, Phrase.Grammatical]; trivial
  | boolean b => rw [minimal, Phrase.Grammatical]; trivial
  | var x => rw [minimal, Phrase.Grammatical]; trivial
  | binary op l r ihl ihr =>
    rw [minimal, Phrase.grammatical_binary]
    exact ⟨⟨Phrase.rank_within, Phrase.rank_within⟩, Phrase.grammatical_within ihl,
      Phrase.grammatical_within ihr⟩
  | unary op e ih =>
    rw [minimal, Phrase.Grammatical]
    exact ⟨Phrase.rank_within, Phrase.grammatical_within ih⟩
  | call name es ih =>
    rw [minimal, Phrase.Grammatical]
    exact List.forall_mem_map.mpr ih

theorem tree_minimal {e : Expr} (h : e.CallsFit) : e.minimal.tree = e := by
  induction e with
  | number v => rw [minimal, Phrase.tree]
  | boolean b => rw [minimal, Phrase.tree]
  | var x => rw [minimal, Phrase.tree]
  | binary op l r ihl ihr =>
    rw [CallsFit] at h
    rw [minimal, Phrase.tree, Phrase.tree_within, Phrase.tree_within, ihl h.1, ihr h.2]
  | unary op e ih =>
    rw [CallsFit] at h
    rw [minimal, Phrase.tree, Phrase.tree_within, ih h, UnaryOp.apply_sign]
  | call name es ih =>
    rw [CallsFit] at h
    obtain ⟨⟨f, rfl, -⟩, hes⟩ := h
    have hargs : (es.map fun e => e.minimal.tree) = es.map id :=
      List.map_congr_left fun e he => ih e he (hes e he)
    rw [List.map_id] at hargs
    rw [minimal, Phrase.tree, f.map_toLower_name, List.map_map]
    exact congrArg _ hargs

theorem callsFit_minimal {e : Expr} (h : e.CallsFit) : e.minimal.CallsFit := by
  induction e with
  | number v => rw [minimal, Phrase.CallsFit]; trivial
  | boolean b => rw [minimal, Phrase.CallsFit]; trivial
  | var x => rw [minimal, Phrase.CallsFit]; trivial
  | binary op l r ihl ihr =>
    rw [CallsFit] at h
    rw [minimal, Phrase.CallsFit]
    exact ⟨Phrase.callsFit_within (ihl h.1), Phrase.callsFit_within (ihr h.2)⟩
  | unary op e ih =>
    rw [CallsFit] at h
    rw [minimal, Phrase.CallsFit]
    exact Phrase.callsFit_within (ih h)
  | call name es ih =>
    rw [CallsFit] at h
    obtain ⟨⟨f, rfl, htakes⟩, hes⟩ := h
    rw [minimal, Phrase.CallsFit, f.map_toLower_name, List.length_map]
    exact ⟨⟨f, rfl, htakes⟩, List.forall_mem_map.mpr fun e he => ih e he (hes e he)⟩

end Expr

namespace Phrase

/-- All phrases of a tree have the same number of operators. -/
theorem operators_minimal (p : Phrase) : p.tree.minimal.operators = p.operators := by
  induction p with
  | number v => rw [tree, Expr.minimal]
  | boolean b => rw [tree, Expr.minimal]
  | var x => rw [tree, Expr.minimal]
  | parens p ih => rw [tree, operators, ih]
  | call x ps ih =>
    have hargs : (ps.map fun p => p.tree.minimal.operators) = ps.map fun p => p.operators :=
      List.map_congr_left ih
    rw [tree, Expr.minimal, operators, operators, List.map_map, List.map_map, ← hargs]
    rfl
  | signed s p ih =>
    rw [tree, operators]
    cases s with
    | plus => exact ih
    | minus | not => rw [PrefixSign.apply, Expr.minimal, operators, operators_within, ih]
  | binary op l r ihl ihr =>
    rw [tree, Expr.minimal, operators, operators, operators_within, operators_within, ihl, ihr]

/-- Where a phrase of a tree can stand, the minimal one nests no deeper. It may need parentheses
there that the other one does not need, but then the other one has a sign or parentheses in their
place. -/
private theorem nesting_minimal_within_le {p : Phrase} (h : p.Grammatical) {bound : Nat}
    (hp : p.rank ≤ bound) : (p.tree.minimal.within bound).nesting ≤ p.nesting := by
  induction p generalizing bound with
  | number v =>
    rw [tree, Expr.minimal]
    exact Nat.le_of_eq (congrArg nesting (within_of_le hp))
  | boolean b =>
    rw [tree, Expr.minimal]
    exact Nat.le_of_eq (congrArg nesting (within_of_le hp))
  | var x =>
    rw [tree, Expr.minimal]
    exact Nat.le_of_eq (congrArg nesting (within_of_le hp))
  | parens p ih =>
    rw [Grammatical] at h
    have hloose := ih h p.rank_le
    rw [within_loosest] at hloose
    rw [tree, nesting]
    exact Nat.le_trans nesting_within_le (Nat.succ_le_succ hloose)
  | call x ps ih =>
    rw [Grammatical] at h
    rw [tree, Expr.minimal, within_of_le, nesting, nesting, List.map_map, List.map_map]
    · have hdeepest := (Parser.lt_of_foldr_max_lt (Nat.lt_succ_self
        ((ps.map fun p => p.nesting).foldr max 0))).2
      refine Parser.foldr_max_lt (Nat.succ_pos _) fun m hm => ?_
      obtain ⟨p, hmem, rfl⟩ := List.mem_map.mp hm
      have hloose := ih p hmem (h p hmem) p.rank_le
      rw [within_loosest] at hloose
      exact Nat.lt_of_le_of_lt hloose (hdeepest _ (List.mem_map_of_mem hmem))
    · exact hp
  | signed s p ih =>
    rw [Grammatical] at h
    rw [tree, nesting]
    cases s with
    -- a plus sign leaves no node, so the minimal phrase is a level short of the other one
    | plus =>
      have hloose := ih h.2 p.rank_le
      rw [within_loosest] at hloose
      exact Nat.le_trans nesting_within_le (Nat.succ_le_succ hloose)
    | minus | not =>
      rw [PrefixSign.apply, Expr.minimal, within_of_le, nesting]
      · exact Nat.succ_le_succ (ih h.2 h.1)
      · exact hp
  | binary op l r ihl ihr =>
    rw [grammatical_binary] at h
    obtain ⟨⟨hl, hr⟩, hgl, hgr⟩ := h
    have hleft := ihl hgl hl
    have hright := ihr hgr hr
    rw [tree, Expr.minimal, within_of_le, nesting, nesting]
    · split <;> omega
    · exact hp

/-- No phrase of a tree nests less deeply than the minimal one. -/
theorem nesting_minimal_le {p : Phrase} (h : p.Grammatical) :
    p.tree.minimal.nesting ≤ p.nesting := by
  have hloose := nesting_minimal_within_le h p.rank_le
  rw [within_loosest] at hloose
  exact hloose

end Phrase
end PriceFormula
