import Mathlib.Algebra.Order.Group.Nat
import PriceFormula.Expr.Parser

/-! Phrases: expressions as they are written, with their parentheses and plus signs. A phrase is
the derivation of its tokens in the grammar of expressions, and both the tree and the two sizes
that are limited are read off it. -/

namespace PriceFormula

inductive PrefixSign where
  | minus | plus | not
deriving DecidableEq, Repr

namespace PrefixSign

def token : PrefixSign → Token
  | minus => .minus
  | plus => .plus
  | not => .not

def apply : PrefixSign → Expr → Expr
  | minus, e => .unary .negate e
  | plus, e => e
  | not, e => .unary .not e

end PrefixSign

def BinaryOp.token : BinaryOp → Token
  | add => .plus
  | subtract => .minus
  | multiply => .star
  | divide => .slash
  | modulo => .percent
  | power => .power
  | equal => .equal
  | notEqual => .notEqual
  | identical => .identical
  | notIdentical => .notIdentical
  | less => .less
  | lessEqual => .lessEqual
  | greater => .greater
  | greaterEqual => .greaterEqual
  | and => .and
  | or => .or

theorem BinaryOp.binaryOp?_token (op : BinaryOp) : op.token.binaryOp? = some op := by
  cases op <;> rfl

theorem Token.token_of_binaryOp? {t : Token} {op : BinaryOp} (h : t.binaryOp? = some op) :
    op.token = t := by
  cases t <;> simp only [Token.binaryOp?, Option.some.injEq, reduceCtorEq] at h <;> subst h <;> rfl

theorem BinaryOp.level_eq_zero_iff (op : BinaryOp) : op.level = 0 ↔ op = .power := by
  cases op <;> simp [BinaryOp.level]

theorem BinaryOp.level_le (op : BinaryOp) : op.level ≤ Parser.loosest := by
  cases op <;> simp [BinaryOp.level, Parser.loosest]

def Function.Takes (f : Function) (count : Nat) : Prop :=
  f.leastCount ≤ count ∧ ∀ most, f.mostCount = some most → count ≤ most

inductive Phrase where
  | number (value : Float)
  | boolean (value : Bool)
  | var (name : String)
  | parens (inner : Phrase)
  | call (name : String) (arguments : List Phrase)
  | signed (sign : PrefixSign) (operand : Phrase)
  | binary (op : BinaryOp) (left right : Phrase)

namespace Phrase

/-- Induction over phrases, with the hypothesis for every argument of a call. -/
@[induction_eliminator]
theorem induct {motive : Phrase → Prop} (number : ∀ v, motive (number v))
    (boolean : ∀ b, motive (boolean b)) (var : ∀ x, motive (var x))
    (parens : ∀ p, motive p → motive (parens p))
    (call : ∀ x ps, (∀ p ∈ ps, motive p) → motive (call x ps))
    (signed : ∀ s p, motive p → motive (signed s p))
    (binary : ∀ op l r, motive l → motive r → motive (binary op l r)) (p : Phrase) : motive p :=
  @Phrase.rec motive (fun ps => ∀ p ∈ ps, motive p) number boolean var parens call signed binary
    (fun _ h => nomatch h) (fun _ _ hp hps => List.forall_mem_cons.mpr ⟨hp, hps⟩) p

def separated : List (List Token) → List Token
  | [] => []
  | ts :: rest => ts ++ rest.flatMap (.comma :: ·)

def tokens : Phrase → List Token
  | number v => [.number v]
  | boolean b => [.boolean b]
  | var x => [.identifier x]
  | parens p => .openParen :: (p.tokens ++ [.closeParen])
  | call x ps => .identifier x :: .openParen :: (separated (ps.map fun p => p.tokens) ++ [.closeParen])
  | signed s p => s.token :: p.tokens
  | binary op l r => l.tokens ++ op.token :: r.tokens

/-- The tree of a phrase. Parentheses leave no node and functions are known by lower-case names. -/
def tree : Phrase → Expr
  | number v => .number v
  | boolean b => .boolean b
  | var x => .var x
  | parens p => p.tree
  | call x ps => .call (x.map Char.toLower) (ps.map fun p => p.tree)
  | signed s p => s.apply p.tree
  | binary op l r => .binary op l.tree r.tree

/-- How loosely a phrase holds together: zero if nothing can come between its ends, one behind a
sign, and from two on by the level of its operator. -/
def rank : Phrase → Nat
  | number _ | boolean _ | var _ | parens _ | call _ _ => 0
  | signed _ _ => 1
  | binary op _ _ => op.level + 2

theorem rank_le (p : Phrase) : p.rank ≤ Parser.loosest + 2 := by
  cases p <;> simp [rank, BinaryOp.level_le]

/-- The grammar. Operators of one level group to the left, but the power groups to the right; its
left operand and that of a sign may be signed, no more. -/
def Grammatical : Phrase → Prop
  | number _ | boolean _ | var _ => True
  | parens p => p.Grammatical
  | call _ ps => ∀ p ∈ ps, p.Grammatical
  | signed _ p => p.rank ≤ 1 ∧ p.Grammatical
  | binary op l r =>
    (if op = .power then l.rank ≤ 1 ∧ r.rank ≤ 2
      else l.rank ≤ op.level + 2 ∧ r.rank ≤ op.level + 1) ∧ l.Grammatical ∧ r.Grammatical

def CallsFit : Phrase → Prop
  | number _ | boolean _ | var _ => True
  | parens p => p.CallsFit
  | call x ps =>
    (∃ f : Function, f.name = x.map Char.toLower ∧ f.Takes ps.length) ∧ ∀ p ∈ ps, p.CallsFit
  | signed _ p => p.CallsFit
  | binary _ l r => l.CallsFit ∧ r.CallsFit

def operators : Phrase → Nat
  | number _ | boolean _ | var _ => 0
  | parens p => p.operators
  | call _ ps => (ps.map fun p => p.operators).foldr (· + ·) 0
  | signed _ p => p.operators
  | binary _ l r => l.operators + r.operators + 1

def nesting : Phrase → Nat
  | number _ | boolean _ | var _ => 0
  | parens p => p.nesting + 1
  | call _ ps => (ps.map fun p => p.nesting).foldr max 0 + 1
  | signed _ p => p.nesting + 1
  | binary op l r => max l.nesting (if op = .power then r.nesting + 1 else r.nesting)

end Phrase
end PriceFormula
