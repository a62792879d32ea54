import PriceFormula.Bindings
import PriceFormula.Expr.Basic
import PriceFormula.Expr.Error
import PriceFormula.Expr.Function

/-! Evaluation of expressions, from left to right. The first error met is the result. -/

namespace PriceFormula

/-- The remainder of the integer parts, with the sign of the dividend. Integer parts are kept
within sixty-four bits. -/
def integerRemainder (l r : Float) : Except ExprError Float :=
  let part := Number.truncate 63
  if part r = 0 then .error .divisionByZero else .ok (Float.ofInt ((part l).tmod (part r)))

/-- The value of an operator on two operand values. Arithmetic and order see numbers, `and` and
`or` see truth. -/
def BinaryOp.apply (op : BinaryOp) (left right : Value) : Except ExprError Value :=
  let l := left.toNumber
  let r := right.toNumber
  match op with
  | add => .ok (.number (l + r))
  | subtract => .ok (.number (l - r))
  | multiply => .ok (.number (l * r))
  | divide => if r == 0 then .error .divisionByZero else .ok (.number (l / r))
  | modulo => (integerRemainder l r).map .number
  | power => .ok (.number (Float.pow l r))
  | equal => .ok (.boolean (left.looselyEqual right))
  | notEqual => .ok (.boolean (!left.looselyEqual right))
  | identical => .ok (.boolean (left.strictlyEqual right))
  | notIdentical => .ok (.boolean (!left.strictlyEqual right))
  | less => .ok (.boolean (l < r))
  | lessEqual => .ok (.boolean (l ≤ r))
  | greater => .ok (.boolean (r < l))
  | greaterEqual => .ok (.boolean (r ≤ l))
  | and => .ok (.boolean (left.holds && right.holds))
  | or => .ok (.boolean (left.holds || right.holds))

def BinaryOp.decided? (op : BinaryOp) (left : Value) : Option Value :=
  match op, left.holds with
  | and, false => some (.boolean false)
  | or, true => some (.boolean true)
  | _, _ => none

def UnaryOp.apply (op : UnaryOp) (operand : Value) : Value :=
  match op with
  | negate => .number (-operand.toNumber)
  | not => .boolean (!operand.holds)

namespace Expr

section
variable {m : Type → Type} [Monad m] [MonadLiftT (Except ExprError) m]
  (apply : Function → List Value → m Value) (bindings : Bindings)

mutual

/-- The value of an expression in which functions are applied in the given way. A right operand that
the left one decides without is not evaluated, and a call looks up its function before its
arguments. -/
def evalWith : Expr → m Value
  | number n => return .number n
  | boolean b => return .boolean b
  | var name =>
    match bindings.get? name with
    | some n => return .number n
    | none => liftM (Except.error (ExprError.unboundVariable name) : Except ExprError Value)
  | unary op operand => do
    let v ← evalWith operand
    return op.apply v
  | binary op left right => do
    let l ← evalWith left
    match op.decided? l with
    | some v => return v
    | none =>
      let r ← evalWith right
      liftM (op.apply l r)
  | call name arguments =>
    match Function.find? name with
    | none => liftM (Except.error (ExprError.unknownFunction name 0) : Except ExprError Value)
    | some f => do
      let vs ← evalAllWith arguments
      apply f vs

def evalAllWith : List Expr → m (List Value)
  | [] => return []
  | e :: rest => do
    let v ← evalWith e
    let vs ← evalAllWith rest
    return v :: vs

end

end

def eval (bindings : Bindings) (e : Expr) : Except ExprError Value :=
  e.evalWith (fun f vs => .ok (f.apply vs)) bindings

def evalAll (bindings : Bindings) (es : List Expr) : Except ExprError (List Value) :=
  evalAllWith (fun f vs => .ok (f.apply vs)) bindings es

section
variable (b : Bindings)

theorem eval_number (v : Float) : (number v).eval b = .ok (.number v) := by
  rw [eval, evalWith]
  rfl

theorem eval_boolean (v : Bool) : (boolean v).eval b = .ok (.boolean v) := by
  rw [eval, evalWith]
  rfl

theorem eval_var (x : String) :
    (var x).eval b = match b.get? x with
      | some v => .ok (.number v)
      | none => .error (.unboundVariable x) := by
  rw [eval, evalWith]
  rfl

theorem eval_unary (op : UnaryOp) (e : Expr) :
    (unary op e).eval b = e.eval b >>= fun v => .ok (op.apply v) := by
  rw [eval, evalWith]
  rfl

theorem eval_binary (op : BinaryOp) (l r : Expr) :
    (binary op l r).eval b = l.eval b >>= fun v =>
      match op.decided? v with
      | some w => .ok w
      | none => r.eval b >>= op.apply v := by
  rw [eval, evalWith]
  rfl

theorem eval_call (name : String) (es : List Expr) :
    (call name es).eval b = match Function.find? name with
      | none => .error (.unknownFunction name 0)
      | some f => evalAll b es >>= fun vs => .ok (f.apply vs) := by
  rw [eval, evalWith]
  rfl

theorem evalAll_nil : evalAll b [] = .ok [] := by
  rw [evalAll, evalAllWith]
  rfl

theorem evalAll_cons (e : Expr) (es : List Expr) :
    evalAll b (e :: es) = e.eval b >>= fun v => evalAll b es >>= fun vs => .ok (v :: vs) := by
  rw [evalAll, evalAllWith]
  rfl

end

end Expr
end PriceFormula
