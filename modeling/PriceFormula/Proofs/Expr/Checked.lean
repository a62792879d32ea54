import Mathlib
import PriceFormula.Proofs.Expr.Grammar
import PriceFormula.Proofs.Expr.Recorded

/-! What the parser has checked holds whenever an expression is evaluated. Names of functions and
numbers of arguments are checked in the text only; evaluation trusts the tree, and every call that
it makes is one that was checked. -/

namespace PriceFormula

namespace Function

/-- The names are in lower case, under which they are looked up. -/
theorem map_toLower_name (f : Function) : f.name.map Char.toLower = f.name := by
  cases f <;> decide +kernel

private theorem find?_name (f : Function) : find? f.name = some f :=
  find?_eq_some.mpr f.map_toLower_name.symm

/-- Of the arguments that a function looks at, only the precision of a rounding can be missing when
the function takes so many. -/
theorem applyWith_of_takes {f : Function} {arguments : List Value} (h : f.Takes arguments.length)
    {missing : Nat → Float} (hround : f = .round → missing 1 = 0) :
    f.applyWith missing arguments = f.apply arguments := by
  obtain ⟨hleast, -⟩ := h
  cases arguments with
  | nil => cases f <;> nomatch hleast
  | cons v rest =>
    cases f with
    | pow =>
      cases rest with
      | nil => nomatch Nat.le_of_succ_le_succ hleast
      | cons w rest => rfl
    | round =>
      cases rest with
      | nil => simp [apply, applyWith, argument, hround rfl]
      | cons w rest => rfl
    | _ => rfl

end Function

namespace Expr

def CallsFit : Expr → Prop
  | number _ | boolean _ | var _ => True
  | binary _ l r => l.CallsFit ∧ r.CallsFit
  | unary _ e => e.CallsFit
  | call name es => (∃ f : Function, f.name = name ∧ f.Takes es.length) ∧ ∀ e ∈ es, e.CallsFit

end Expr

/-- What the parser checks of a phrase holds of its tree. -/
theorem Phrase.callsFit_tree {p : Phrase} (h : p.CallsFit) : p.tree.CallsFit := by
  induction p with
  | number v => rw [tree, Expr.CallsFit]; trivial
  | boolean v => rw [tree, Expr.CallsFit]; trivial
  | var x => rw [tree, Expr.CallsFit]; trivial
  | parens p ih =>
    rw [CallsFit] at h
    rw [tree]
    exact ih h
  | call x ps ih =>
    rw [CallsFit] at h
    rw [tree, Expr.CallsFit, List.length_map]
    refine ⟨h.1, fun e he => ?_⟩
    obtain ⟨p, hp, rfl⟩ := List.mem_map.mp he
    exact ih p hp (h.2 p hp)
  | signed s p ih =>
    rw [CallsFit] at h
    rw [tree]
    cases s with
    | plus => exact ih h
    | minus | not => rw [PrefixSign.apply, Expr.CallsFit]; exact ih h
  | binary op l r ihl ihr =>
    rw [CallsFit] at h
    rw [tree, Expr.CallsFit]
    exact ⟨ihl h.1, ihr h.2⟩

namespace Expr

private theorem callsFit_of_parse {text : String} {e : Expr} (h : parse text = .ok e) :
    e.CallsFit := by
  obtain ⟨p, -, rfl, hallowed⟩ := parse_eq_ok.mp h
  exact Phrase.callsFit_tree hallowed.callsFit

section Evaluation
variable {b : Bindings}

/-- Where all calls fit, evaluation fails for a zero divisor or a variable without value. -/
theorem CallsFit.eval_eq_error {e : Expr} (hfit : e.CallsFit) {err : ExprError}
    (h : e.eval b = .error err) : err = .divisionByZero ∨ ∃ x, err = .unboundVariable x := by
  induction e with
  | number v => rw [eval_number] at h; cases h
  | boolean v => rw [eval_boolean] at h; cases h
  | var x =>
    rw [eval_var] at h
    split at h
    · cases h
    · exact .inr ⟨x, (Except.error.inj h).symm⟩
  | binary op l r ihl ihr =>
    rw [eval_binary] at h
    rw [CallsFit] at hfit
    rcases bind_eq_error.mp h with hl | ⟨v, -, h⟩
    · exact ihl hfit.1 hl
    · split at h
      · cases h
      · rcases bind_eq_error.mp h with hr | ⟨w, -, h⟩
        · exact ihr hfit.2 hr
        · exact .inl (apply_eq_error h)
  | unary op e ih =>
    rw [eval_unary] at h
    rw [CallsFit] at hfit
    rcases bind_eq_error.mp h with he | ⟨v, -, h⟩
    · exact ih hfit he
    · cases h
  | call name es ih =>
    rw [eval_call] at h
    rw [CallsFit] at hfit
    obtain ⟨⟨f, rfl, -⟩, hes⟩ := hfit
    rw [f.find?_name] at h
    rcases bind_eq_error.mp h with hargs | ⟨vs, -, h⟩
    · obtain ⟨e, hmem, he⟩ := evalAll_eq_error hargs
      exact ih e hmem (hes e hmem) he
    · cases h

private theorem length_of_evalAll {es : List Expr} {vs : List Value} (h : evalAll b es = .ok vs) :
    vs.length = es.length := by
  induction es generalizing vs with
  | nil =>
    rw [evalAll_nil] at h
    obtain rfl := Except.ok.inj h
    rfl
  | cons e es ih =>
    rw [evalAll_cons] at h
    obtain ⟨v, -, h⟩ := bind_eq_ok.mp h
    obtain ⟨vs', hvs, h⟩ := bind_eq_ok.mp h
    obtain rfl := Except.ok.inj h
    rw [List.length_cons, List.length_cons, ih hvs]

private theorem CallsFit.of_demands {e e' : Expr} (hfit : e.CallsFit) (h : Demands b e e') :
    e'.CallsFit := by
  cases h with
  | left =>
    rw [CallsFit] at hfit
    exact hfit.1
  | right =>
    rw [CallsFit] at hfit
    exact hfit.2
  | operand =>
    rw [CallsFit] at hfit
    exact hfit
  | argument =>
    rw [CallsFit] at hfit
    exact hfit.2 e' (List.mem_append_right _ List.mem_cons_self)

private theorem CallsFit.of_demands_many {e e' : Expr} (hfit : e.CallsFit)
    (h : Relation.ReflTransGen (Demands b) e e') : e'.CallsFit := by
  induction h with
  | refl => exact hfit
  | tail _ hstep ih => exact ih.of_demands hstep

/-- Where all calls fit, no function is ever applied to fewer or more values than it takes. -/
theorem CallsFit.takes_of_mem_calls {e : Expr} (hfit : e.CallsFit) {f : Function} {vs : List Value}
    (h : (f, vs) ∈ (e.recorded b).calls) : f.Takes vs.length := by
  obtain ⟨name, es, hdemands, hfind, hvs⟩ := mem_calls_iff.mp h
  have hcall := hfit.of_demands_many hdemands
  rw [CallsFit] at hcall
  obtain ⟨⟨g, rfl, htakes⟩, -⟩ := hcall
  rw [g.find?_name] at hfind
  obtain rfl := Option.some.inj hfind
  rwa [length_of_evalAll hvs]

/-- Where all calls fit, functions matter only at the numbers of arguments that they take. -/
theorem CallsFit.evalWith_of_takes {e : Expr} (hfit : e.CallsFit)
    {apply : Function → List Value → Except ExprError Value}
    (happly : ∀ f vs, f.Takes vs.length → apply f vs = .ok (f.apply vs)) :
    e.evalWith apply b = e.eval b :=
  evalWith_congr fun c hc => happly c.1 c.2 (hfit.takes_of_mem_calls hc)

end Evaluation

/-- What is checked when a text is parsed needs no check when it is evaluated. An accepted
expression fails for a zero divisor or for one of its variables that is not bound, and for nothing
else. An evaluation that keeps record of its calls has the same result, and each function on record
was applied to as many values as it takes; so functions that do otherwise at other numbers of
arguments give the same result, and it does not matter what stands for a missing argument, but for
the precision of a rounding. All errors of form, function names and numbers of arguments are errors
of parsing, and parsing has no others. -/
theorem eval_of_parse (text : String) :
    (∀ e, parse text = .ok e → ∀ b : Bindings,
      (∀ err, e.eval b = .error err → err = .divisionByZero ∨
        ∃ x, err = .unboundVariable x ∧ x ∈ e.vars ∧ b.get? x = none) ∧
      ((∀ x ∈ e.vars, b.contains x = true) →
        ∀ err, e.eval b = .error err → err = .divisionByZero) ∧
      ((e.recorded b).result = e.eval b ∧
        ∀ f vs, (f, vs) ∈ (e.recorded b).calls → f.Takes vs.length) ∧
      (∀ apply : Function → List Value → Except ExprError Value,
        (∀ f vs, f.Takes vs.length → apply f vs = .ok (f.apply vs)) →
          e.evalWith apply b = e.eval b) ∧
      ∀ missing : Function → Nat → Float, missing .round 1 = 0 →
        e.evalWith (fun f vs => Except.ok (f.applyWith (missing f) vs)) b = e.eval b) ∧
    ∀ err, parse text = .error err →
      (∃ message position, err = .malformed message position text) ∨
      (∃ name position, err = .unknownFunction name position) ∨
      ∃ function expected actual, err = .argumentCount function expected actual := by
  refine ⟨fun e he b => ?_, fun err => parse_eq_error⟩
  have hfit := callsFit_of_parse he
  have herror (err : ExprError) (h : e.eval b = .error err) : err = .divisionByZero ∨
      ∃ x, err = .unboundVariable x ∧ x ∈ e.vars ∧ b.get? x = none := by
    rcases hfit.eval_eq_error h with hzero | ⟨x, rfl⟩
    · exact .inl hzero
    · exact .inr ⟨x, rfl, eval_eq_unbound h⟩
  refine ⟨herror, fun hbound err h => ?_,
    ⟨result_recorded b e, fun _ _ => hfit.takes_of_mem_calls⟩, fun _ => hfit.evalWith_of_takes,
    fun missing hround => ?_⟩
  · rcases herror err h with hzero | ⟨x, -, hx, hnone⟩
    · exact hzero
    · have := hbound x hx
      rw [Bindings.contains_eq_isSome_get?, hnone] at this
      nomatch this
  · refine hfit.evalWith_of_takes fun f vs htakes => congrArg Except.ok ?_
    exact Function.applyWith_of_takes htakes fun hf => by rw [hf, hround]

/-- A rounding without precision, which is evaluated as the condition before it does not decide
alone, also by functions that check the number of their arguments again; the same where a variable
has no value; and a text refused for its number of arguments. -/
theorem eval_of_guarded_quotient :
    let quotient := binary .divide (call "round" [var "a"]) (binary .subtract (var "b") (var "b"))
    let e := binary .and (binary .greater (var "a") (var "b")) (binary .less quotient (var "a"))
    let b := Bindings.ofList [("a", 2.5), ("b", 1)]
    let incomplete := Bindings.ofList [("a", 2.5)]
    let refused := ExprError.argumentCount "round" "at least 1" 0
    let missing (f : Function) (_ : Nat) : Float := if f = .round then 0 else 7
    let checked (f : Function) (vs : List Value) : Except ExprError Value :=
      if (Parser.checkCount f vs.length).isOk then .ok (f.apply vs) else .error refused
    parse "a > b and round(a) / (b - b) < a" = .ok e ∧
      ((e.recorded b).calls = [(.round, [.number 2.5])] ∧ Function.round.Takes 1) ∧
      ((∀ f vs, f.Takes vs.length → checked f vs = .ok (f.apply vs)) ∧
        e.evalWith checked b = e.eval b) ∧
      (missing .round 1 = 0 ∧
        e.evalWith (fun f vs => Except.ok (f.applyWith (missing f) vs)) b = e.eval b) ∧
      (e.eval b = .error .divisionByZero ∧
        ∀ err, e.eval b = .error err → err = .divisionByZero) ∧
      (e.eval incomplete = .error (.unboundVariable "b") ∧ "b" ∈ e.vars ∧
        incomplete.get? "b" = none) ∧
      parse "round()" = .error refused ∧
      ∃ function expected actual, refused = .argumentCount function expected actual := by
  intro quotient e b incomplete refused missing checked
  obtain ⟨hparse, hrefused⟩ : parse "a > b and round(a) / (b - b) < a" = .ok e ∧
      parse "round()" = .error refused := by
    constructor
    · cbv
    · cbv
  have hvars : ∀ x ∈ e.vars, b.contains x = true := by
    have hbound : b.contains "a" = true ∧ b.contains "b" = true := by decide +kernel
    simp [e, quotient, vars, hbound]
  have hrecord : (e.recorded b).calls = [(.round, [.number 2.5])] := by decide +kernel
  have hunbound : e.eval incomplete = .error (.unboundVariable "b") := by decide +kernel
  have hchecked (f : Function) (vs : List Value) (h : f.Takes vs.length) :
      checked f vs = .ok (f.apply vs) := by
    dsimp only [checked]
    rw [Parser.checkCount_eq_ok.mpr h]
    rfl
  obtain ⟨-, hzero, ⟨-, htakes⟩, happly, hmissing⟩ := (eval_of_parse _).1 e hparse b
  have hcall : (.round, [.number 2.5]) ∈ (e.recorded b).calls := by
    rw [hrecord]
    exact List.mem_cons_self
  have hround : missing .round 1 = 0 := if_pos rfl
  refine ⟨hparse, ⟨hrecord, htakes _ _ hcall⟩, ⟨hchecked, happly checked hchecked⟩,
    ⟨hround, hmissing missing hround⟩, ⟨by decide +kernel, hzero hvars⟩, ⟨hunbound, ?_⟩, hrefused, ?_⟩
  · rcases ((eval_of_parse _).1 e hparse incomplete).1 _ hunbound with h | ⟨x, hx, hmem, hnone⟩
    · cases h
    · obtain rfl := ExprError.unboundVariable.inj hx
      exact ⟨hmem, hnone⟩
  · rcases (eval_of_parse _).2 refused hrefused with ⟨_, _, h⟩ | ⟨_, _, h⟩ | h
    · exact absurd h (by simp [refused])
    · exact absurd h (by simp [refused])
    · exact h

end Expr
end PriceFormula
