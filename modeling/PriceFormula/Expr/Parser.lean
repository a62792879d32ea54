import PriceFormula.Expr.Basic
import PriceFormula.Expr.Error
import PriceFormula.Expr.Function
import PriceFormula.Expr.Token

/-! The parser of expressions. From the loosest level inward: `or`; `and`; comparisons; sums;
products; powers; signs and negation; then literals, variables, calls and parentheses. Chains group
to the left, powers to the right, and a sign binds tighter than a power.

What stands in parentheses, in a call, after a sign or at the right of a power is read with one more
level open. A parser comes back to itself for a number of turns, and the count of open levels ends
it before they do. -/

namespace PriceFormula

/-- Deepest nesting of parentheses, calls, signs and right sides of powers. -/
def nestingLimit : Nat := 64

def operatorLimit : Nat := 512

inductive Complaint where
  | stray (char : Char)
  /-- No operand starts, or nothing may follow, with this token or the end. -/
  | unexpected (found : Option Token)
  | expected (wanted : Token) (found : Option Token)
  | nestedTooDeeply
  | tooManyOperators
deriving DecidableEq

def Complaint.shown : Option Token → String
  | some token => token.text
  | none => "end of expression"

def Complaint.message : Complaint → String
  | stray c => "Unexpected character \"" ++ String.singleton c ++ "\""
  | unexpected found => "Unexpected token \"" ++ shown found ++ "\""
  | expected wanted found =>
    "Expected \"" ++ wanted.text ++ "\" but found \"" ++ shown found ++ "\""
  | nestedTooDeeply => "Expression is nested too deeply"
  | tooManyOperators => "Expression has too many operators"

inductive ParseError where
  | complaint (cause : Complaint) (position : Nat)
  | unknownFunction (name : String) (position : Nat)
  | tooFewArguments (function : Function) (actual : Nat)
  | tooManyArguments (function : Function) (most actual : Nat)
deriving DecidableEq

def ParseError.toExprError (text : String) : ParseError → ExprError
  | complaint cause position => .malformed cause.message position text
  | unknownFunction name position => .unknownFunction name position
  | tooFewArguments f actual =>
    .argumentCount f.name ("at least " ++ toString f.leastCount) actual
  | tooManyArguments f most actual => .argumentCount f.name ("at most " ++ toString most) actual

structure Cursor where
  ahead : List Located
  operators : Nat

def Token.binaryOp? : Token → Option BinaryOp
  | .or => some .or
  | .and => some .and
  | .equal => some .equal
  | .notEqual => some .notEqual
  | .identical => some .identical
  | .notIdentical => some .notIdentical
  | .less => some .less
  | .lessEqual => some .lessEqual
  | .greater => some .greater
  | .greaterEqual => some .greaterEqual
  | .plus => some .add
  | .minus => some .subtract
  | .star => some .multiply
  | .slash => some .divide
  | .percent => some .modulo
  | .power => some .power
  | _ => none

namespace Cursor

def token? (c : Cursor) : Option Token := c.ahead.head?.map Located.token

def operator? (level : Nat) (c : Cursor) : Option BinaryOp :=
  (c.token?.bind Token.binaryOp?).filter fun op => op.level = level

end Cursor

namespace Parser

variable (ending : Ending)

def position (c : Cursor) : Nat :=
  match c.ahead with
  | t :: _ => t.start
  | [] => ending.position

def refuse {α : Type} (cause : Complaint) (c : Cursor) : Except ParseError α :=
  .error (.complaint cause (position ending c))

/-- Puts a cursor before some tokens. Their end can only be reached where no stray character stands
in the text. -/
def settle (ahead : List Located) (operators : Nat) : Except ParseError Cursor :=
  match ahead, ending.stray with
  | [], some c => .error (.complaint (.stray c) ending.position)
  | _, _ => .ok ⟨ahead, operators⟩

def next (c : Cursor) : Except ParseError Cursor := settle ending c.ahead.tail c.operators

def require (wanted : Token) (c : Cursor) : Except ParseError Cursor :=
  if c.token? = some wanted then next ending c
  else refuse ending (.expected wanted c.token?) c

def countOperator (c : Cursor) : Except ParseError Cursor :=
  if c.operators < operatorLimit then .ok { c with operators := c.operators + 1 }
  else refuse ending .tooManyOperators c

def checkCount (f : Function) (count : Nat) : Except ParseError Unit :=
  if count < f.leastCount then .error (.tooFewArguments f count)
  else
    match f.mostCount with
    | some most => if most < count then .error (.tooManyArguments f most count) else .ok ()
    | none => .ok ()

end Parser

/-- What parsers are made of. They look at a cursor and move it, fail, and read what stands one
level deeper. -/
class MonadParser (m : Type → Type) extends Monad m where
  cursor : m Cursor
  move : (Cursor → Except ParseError Cursor) → m Unit
  check {α : Type} : Except ParseError α → m α
  deeper {α : Type} : Ending → m α → m α

namespace Parser
open MonadParser

/-- The parsers of what stands one level deeper. -/
structure Nested (m : Type → Type) where
  expression : m Expr
  arguments : m (List Expr)
  power : m Expr
  signed : m Expr

variable {m : Type → Type} [MonadParser m] (ending : Ending)

/-- A call, at the parenthesis after the name. The name is looked up before anything behind it is
read, the number of arguments is checked last. -/
def call (inner : Nested m) (name : String) (start : Nat) : m Expr :=
  match Function.find? name with
  | none => check (.error (.unknownFunction name start))
  | some f => do
    move (next ending)
    let arguments ← deeper ending inner.arguments
    move (require ending .closeParen)
    check (checkCount f arguments.length)
    return .call f.name arguments

def primary (inner : Nested m) : m Expr := do
  let c ← cursor
  match c.ahead with
  | ⟨.number value, _, _⟩ :: _ =>
    move (next ending)
    return .number value
  | ⟨.boolean value, _, _⟩ :: _ =>
    move (next ending)
    return .boolean value
  | ⟨.openParen, _, _⟩ :: _ =>
    move (next ending)
    let e ← deeper ending inner.expression
    move (require ending .closeParen)
    return e
  | ⟨.identifier name, start, _⟩ :: _ =>
    move (next ending)
    let c ← cursor
    if c.token? = some .openParen then call ending inner name start else return .var name
  | _ => check (refuse ending (.unexpected c.token?) c)

def signed (inner : Nested m) : m Expr := do
  let c ← cursor
  match c.token? with
  | some .minus =>
    move (next ending)
    let e ← deeper ending inner.signed
    return .unary .negate e
  | some .not =>
    move (next ending)
    let e ← deeper ending inner.signed
    return .unary .not e
  | some .plus =>
    move (next ending)
    deeper ending inner.signed
  | _ => primary ending inner

def power (inner : Nested m) : m Expr := do
  let left ← signed ending inner
  let c ← cursor
  match c.operator? 0 with
  | none => return left
  | some op =>
    move (countOperator ending)
    move (next ending)
    let right ← deeper ending inner.power
    return .binary op left right

def chainFrom (level : Nat) (operand : m Expr) : (turns : Nat) → Expr → m Expr
  | 0, left => return left
  | turns + 1, left => do
    let c ← cursor
    match c.operator? level with
    | none => return left
    | some op =>
      move (countOperator ending)
      move (next ending)
      let right ← operand
      chainFrom level operand turns (.binary op left right)

/-- Operands joined by operators of one level, grouped to the left. Every turn takes a token, so
the tokens ahead bound the turns. -/
def chain (level : Nat) (operand : m Expr) : m Expr := do
  let left ← operand
  let c ← cursor
  chainFrom ending level operand c.ahead.length left

def atLevel (inner : Nested m) : Nat → m Expr
  | 0 => power ending inner
  | level + 1 => chain ending (level + 1) (atLevel inner level)

def moreArguments (argument : m Expr) : (turns : Nat) → m (List Expr)
  | 0 => return []
  | turns + 1 => do
    let c ← cursor
    if c.token? = some .comma then
      move (next ending)
      let first ← argument
      let others ← moreArguments argument turns
      return first :: others
    else return []

def argumentList (argument : m Expr) : m (List Expr) := do
  let c ← cursor
  if c.token? = some .closeParen then return []
  else
    let first ← argument
    let c ← cursor
    let others ← moreArguments ending argument c.ahead.length
    return first :: others

def loosest : Nat := 5

def around (inner : Nested m) : Nested m where
  expression := atLevel ending inner loosest
  arguments := argumentList ending (atLevel ending inner loosest)
  power := power ending inner
  signed := signed ending inner

/-- The parsers that come back to themselves at most `turns` times and then to other ones. -/
def within (beyond : Nested m) : (turns : Nat) → Nested m
  | 0 => beyond
  | turns + 1 => around ending (within beyond turns)

def tooDeep : Nested m :=
  let refused {α : Type} : m α := do check (refuse ending .nestedTooDeeply (← cursor))
  ⟨refused, refused, refused, refused⟩

def whole (beyond : Nested m) (turns : Nat) : m Expr := do
  move fun c => settle ending c.ahead c.operators
  let e ← (within ending beyond turns).expression
  let c ← cursor
  if c.ahead.isEmpty then return e
  else check (refuse ending (.unexpected c.token?) c)

end Parser

class Log (σ : Type) where
  note (depth : Nat) (log : σ) : σ

instance : Log Unit where
  note _ log := log

structure Meter (σ : Type) where
  cursor : Cursor
  /-- The parentheses, calls, signs and right sides of powers that are open. -/
  depth : Nat
  log : σ

/-- A parser that counts the levels that are open. What it has kept stays known when it fails. -/
abbrev Metered (σ α : Type) : Type := Meter σ → Except ParseError α × Meter σ

namespace Metered
variable {σ α : Type} (ending : Ending)

instance : Monad (Metered σ) where
  pure a := fun m => (.ok a, m)
  bind p f := fun m =>
    match p m with
    | (.ok a, m) => f a m
    | (.error e, m) => (.error e, m)

def enter : Metered σ Unit := fun m =>
  let m := { m with depth := m.depth + 1 }
  if nestingLimit < m.depth then
    (.error (.complaint .nestedTooDeeply (Parser.position ending m.cursor)), m)
  else (.ok (), m)

def leave : Metered σ Unit := fun m => (.ok (), { m with depth := m.depth - 1 })

variable [Log σ]

instance : MonadParser (Metered σ) where
  cursor := fun m => (.ok m.cursor, { m with log := Log.note m.depth m.log })
  move f := fun m =>
    let m := { m with log := Log.note m.depth m.log }
    match f m.cursor with
    | .ok c => (.ok (), { m with cursor := c })
    | .error e => (.error e, m)
  check r := fun m => (r, m)
  deeper ending p := do
    enter ending
    let a ← p
    leave
    return a

def run (beyond : Parser.Nested (Metered σ)) (turns : Nat) (log : σ) (input : TokenList) :
    Except ParseError Expr × Meter σ :=
  Parser.whole input.ending beyond turns ⟨⟨input.tokens, 0⟩, 0, log⟩

end Metered

namespace Expr

def ofTokens (input : TokenList) : Except ParseError Expr :=
  (Metered.run (Parser.tooDeep input.ending) (nestingLimit + 1) () input).1

def parse (text : String) : Except ExprError Expr :=
  (ofTokens (.ofText text.toList)).mapError (ParseError.toExprError text)

end Expr
end PriceFormula
