import PriceFormula.Expr.Evaluation
import PriceFormula.Proofs.Expr.Grammar
import PriceFormula.Proofs.Expr.Scan

namespace PriceFormula

namespace Expr

/-- Induction over expressions, with the hypothesis for every argument of a call. -/
@[induction_eliminator]
theorem induct {motive : Expr → Prop} (number : ∀ v, motive (number v))
    (boolean : ∀ b, motive (boolean b)) (var : ∀ x, motive (var x))
    (binary : ∀ op l r, motive l → motive r → motive (binary op l r))
    (unary : ∀ op e, motive e → motive (unary op e))
    (call : ∀ x es, (∀ e ∈ es, motive e) → motive (call x es)) (e : Expr) : motive e :=
  @Expr.rec motive (fun es => ∀ e ∈ es, motive e) number boolean var binary unary call
    (fun _ h => nomatch h) (fun _ _ he hes => List.forall_mem_cons.mpr ⟨he, hes⟩) e

def vars : Expr → List String
  | number _ | boolean _ => []
  | var x => [x]
  | binary _ l r => l.vars ++ r.vars
  | unary _ e => e.vars
  | call _ es => es.flatMap fun e => e.vars

private theorem mem_vars_call {x name : String} {es : List Expr} :
    x ∈ (call name es).vars ↔ ∃ e ∈ es, x ∈ e.vars := by
  rw [vars, List.mem_flatMap]

/-- An operator fails only for a zero divisor. -/
theorem apply_eq_error {op : BinaryOp} {l r : Value} {err : ExprError}
    (h : op.apply l r = .error err) : err = .divisionByZero := by
  cases op with
  | divide =>
    simp only [BinaryOp.apply] at h
    split at h
    · exact (Except.error.inj h).symm
    · nomatch h
  | modulo =>
    simp only [BinaryOp.apply, integerRemainder] at h
    split at h
    · exact (Except.error.inj h).symm
    · nomatch h
  | _ => nomatch h

theorem evalAll_eq_error {b : Bindings} {es : List Expr} {err : ExprError}
    (h : evalAll b es = .error err) : ∃ e ∈ es, e.eval b = .error err := by
  induction es with
  | nil => nomatch h
  | cons e es ih =>
    rw [evalAll_cons] at h
    rcases bind_eq_error.mp h with he | ⟨v, -, h⟩
    · exact ⟨e, List.mem_cons_self, he⟩
    · rcases bind_eq_error.mp h with hes | ⟨vs, -, h⟩
      · obtain ⟨e', he', herr⟩ := ih hes
        exact ⟨e', List.mem_cons_of_mem e he', herr⟩
      · nomatch h

/-- Evaluation reports only variables of the expression that are not bound. -/
theorem eval_eq_unbound {b : Bindings} {e : Expr} {x : String}
    (h : e.eval b = .error (.unboundVariable x)) : x ∈ e.vars ∧ b.get? x = none := by
  induction e with
  | number v => rw [eval_number] at h; nomatch h
  | boolean v => rw [eval_boolean] at h; nomatch h
  | var y =>
    rw [eval_var] at h
    split at h
    · nomatch h
    · obtain rfl := ExprError.unboundVariable.inj (Except.error.inj h)
      rw [vars]
      exact ⟨List.mem_singleton.mpr rfl, ‹_›⟩
  | binary op l r ihl ihr =>
    rw [eval_binary] at h
    rw [vars, List.mem_append]
    rcases bind_eq_error.mp h with hl | ⟨v, -, h⟩
    · exact ⟨.inl (ihl hl).1, (ihl hl).2⟩
    · split at h
      · nomatch h
      · rcases bind_eq_error.mp h with hr | ⟨w, -, h⟩
        · exact ⟨.inr (ihr hr).1, (ihr hr).2⟩
        · nomatch apply_eq_error h
  | unary op e ih =>
    rw [eval_unary] at h
    rw [vars]
    rcases bind_eq_error.mp h with he | ⟨v, -, h⟩
    · exact ih he
    · nomatch h
  | call name es ih =>
    rw [eval_call] at h
    split at h
    · nomatch h
    · rcases bind_eq_error.mp h with hes | ⟨vs, -, h⟩
      · obtain ⟨e, hmem, he⟩ := evalAll_eq_error hes
        exact ⟨mem_vars_call.mpr ⟨e, hmem, (ih e hmem he).1⟩, (ih e hmem he).2⟩
      · nomatch h

private theorem evalAll_congr {b b' : Bindings} {es : List Expr}
    (h : ∀ e ∈ es, e.eval b = e.eval b') : evalAll b es = evalAll b' es := by
  induction es with
  | nil => rfl
  | cons e es ih =>
    rw [evalAll_cons, evalAll_cons, h e List.mem_cons_self,
      ih fun e' he' => h e' (List.mem_cons_of_mem e he')]

/-- Bindings that agree on the variables of an expression give it the same value or error. -/
theorem eval_congr {b b' : Bindings} {e : Expr} (h : ∀ x ∈ e.vars, b.get? x = b'.get? x) :
    e.eval b = e.eval b' := by
  induction e with
  | number v => rw [eval_number, eval_number]
  | boolean v => rw [eval_boolean, eval_boolean]
  | var x =>
    rw [vars] at h
    rw [eval_var, eval_var, h x (List.mem_singleton.mpr rfl)]
  | binary op l r ihl ihr =>
    rw [vars] at h
    rw [eval_binary, eval_binary, ihl fun x hx => h x (List.mem_append_left _ hx),
      ihr fun x hx => h x (List.mem_append_right _ hx)]
  | unary op e ih =>
    rw [vars] at h
    rw [eval_unary, eval_unary, ih h]
  | call name es ih =>
    have hargs : evalAll b es = evalAll b' es :=
      evalAll_congr fun e he => ih e he fun x hx => h x (mem_vars_call.mpr ⟨e, he, hx⟩)
    rw [eval_call, eval_call, hargs]

end Expr

/-- The name stands among the tokens as a variable can: no parenthesis opens behind it and no
number stands before it. -/
def Token.StandsAlone (x : String) (ts : List Token) : Prop :=
  ∃ before after, ts = before ++ .identifier x :: after ∧ after.head? ≠ some .openParen ∧
    ∀ v, before.getLast? ≠ some (.number v)

namespace Token.StandsAlone
variable {x : String} {ts : List Token} {t : Token}

theorem mem (h : StandsAlone x ts) : .identifier x ∈ ts := by
  obtain ⟨before, after, rfl, -⟩ := h
  exact List.mem_append_right _ List.mem_cons_self

private theorem behind (us : List Token) (ht : ∀ v, t ≠ .number v) (h : StandsAlone x ts) :
    StandsAlone x (us ++ t :: ts) := by
  obtain ⟨before, after, rfl, hafter, hbefore⟩ := h
  refine ⟨us ++ t :: before, after, by simp, hafter, fun v hv => ?_⟩
  rw [List.getLast?_append, List.getLast?_cons, Option.some_or] at hv
  cases before with
  | nil => exact ht v (Option.some.inj hv)
  | cons u before => exact hbefore v (by rw [List.getLast?_cons] at hv ⊢; exact hv)

private theorem ahead (us : List Token) (ht : t ≠ .openParen) (h : StandsAlone x ts) :
    StandsAlone x (ts ++ t :: us) := by
  obtain ⟨before, after, rfl, hafter, hbefore⟩ := h
  refine ⟨before, after ++ t :: us, by simp, ?_, hbefore⟩
  cases after with
  | nil => exact fun he => ht (Option.some.inj he)
  | cons u after => exact hafter

end Token.StandsAlone

namespace Phrase

/-- Behind an argument of a call stands a comma or the closing parenthesis. -/
theorem closed_arguments (rest : List (List Token)) :
    ∃ t us, rest.flatMap (.comma :: ·) ++ [.closeParen] = t :: us ∧ t ≠ Token.openParen := by
  cases rest with
  | nil => exact ⟨_, _, rfl, nofun⟩
  | cons ts rest => exact ⟨_, _, rfl, nofun⟩

private theorem standsAlone_separated {x : String} {ts : List Token} {tss : List (List Token)}
    (hts : ts ∈ tss) (h : Token.StandsAlone x ts) :
    Token.StandsAlone x (.openParen :: (separated tss ++ [.closeParen])) := by
  cases tss with
  | nil => nomatch hts
  | cons first rest =>
    rw [separated, List.append_assoc]
    rcases List.mem_cons.mp hts with rfl | hts
    · obtain ⟨t, us, hclose, ht⟩ := closed_arguments rest
      rw [hclose]
      exact (h.ahead us ht).behind [] (by simp)
    · obtain ⟨left, right, rfl⟩ := List.append_of_mem hts
      obtain ⟨t, us, hclose, ht⟩ := closed_arguments right
      have hsplit : Token.openParen ::
            (first ++ ((left ++ ts :: right).flatMap (.comma :: ·) ++ [.closeParen])) =
          (.openParen :: (first ++ left.flatMap (.comma :: ·))) ++ .comma :: (ts ++ t :: us) := by
        rw [← hclose]
        simp
      rw [hsplit]
      exact (h.ahead us ht).behind _ (by simp)

/-- Every variable of a phrase stands alone among its tokens. -/
theorem standsAlone_of_mem_vars {p : Phrase} {x : String} (h : x ∈ p.tree.vars) :
    Token.StandsAlone x p.tokens := by
  induction p with
  | number v => rw [tree, Expr.vars] at h; cases h
  | boolean v => rw [tree, Expr.vars] at h; cases h
  | var y =>
    rw [tree, Expr.vars] at h
    obtain rfl := List.mem_singleton.mp h
    rw [tokens]
    exact ⟨[], [], rfl, by simp, by simp⟩
  | parens p ih =>
    rw [tree] at h
    rw [tokens]
    exact ((ih h).ahead [] (by simp)).behind [] (by simp)
  | call name ps ih =>
    rw [tree, Expr.mem_vars_call] at h
    obtain ⟨e, he, hx⟩ := h
    obtain ⟨p, hp, rfl⟩ := List.mem_map.mp he
    rw [tokens]
    exact (standsAlone_separated (List.mem_map_of_mem hp) (ih p hp hx)).behind [] (by simp)
  | signed s p ih =>
    rw [tree] at h
    rw [tokens]
    refine (ih ?_).behind [] (by cases s <;> simp [PrefixSign.token])
    cases s <;> simpa [PrefixSign.apply, Expr.vars] using h
  | binary op l r ihl ihr =>
    rw [tree, Expr.vars, List.mem_append] at h
    rw [tokens]
    rcases h with h | h
    · exact (ihl h).ahead _ (by cases op <;> simp [BinaryOp.token])
    · exact (ihr h).behind _ (by cases op <;> simp [BinaryOp.token])

end Phrase

/-- The tokens of a text without stray characters are those that scanning finds. -/
theorem TokenList.eq_scan_of_whole? {s : List Char} {ts : List Token}
    (h : (ofText s).whole? = some ts) : ts = Token.scan s := by
  unfold whole? at h
  split at h
  · rw [← Token.map_token_ofText, Option.some.inj h]
  · nomatch h

/-- Every variable of a parsed text stands alone among the tokens of the text. -/
theorem Expr.standsAlone_of_parse {text : String} {e : Expr} (h : parse text = .ok e) {x : String}
    (hx : x ∈ e.vars) : Token.StandsAlone x (Token.scan text.toList) := by
  obtain ⟨p, htokens, rfl, -⟩ := parse_eq_ok.mp h
  rw [← TokenList.eq_scan_of_whole? htokens]
  exact Phrase.standsAlone_of_mem_vars hx

end PriceFormula
