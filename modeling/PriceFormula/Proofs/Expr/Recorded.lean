import Mathlib.Logic.Relation
import PriceFormula.Proofs.Expr.Variables

/-! The calls that an evaluation makes. An evaluation that keeps record of them gives the same
result, and the functions matter to it at the calls on record only. -/

namespace PriceFormula

/-- A computation together with the calls of functions that it made until its end or failure. -/
structure Recorded (α : Type) where
  result : Except ExprError α
  calls : List (Function × List Value)

namespace Recorded
variable {α β : Type} {c : Function × List Value}

instance : Monad Recorded where
  pure a := ⟨.ok a, []⟩
  bind x f :=
    match x.result with
    | .ok a => ⟨(f a).result, x.calls ++ (f a).calls⟩
    | .error e => ⟨.error e, x.calls⟩

instance : MonadLift (Except ExprError) Recorded where
  monadLift x := ⟨x, []⟩

def apply (f : Function) (vs : List Value) : Recorded Value := ⟨.ok (f.apply vs), [(f, vs)]⟩

private theorem result_bind (x : Recorded α) (f : α → Recorded β) :
    (x >>= f).result = x.result >>= fun a => (f a).result := by
  obtain ⟨result, calls⟩ := x
  cases result <;> rfl

private theorem mem_calls_bind {x : Recorded α} {f : α → Recorded β} :
    c ∈ (x >>= f).calls ↔ c ∈ x.calls ∨ ∃ a, x.result = .ok a ∧ c ∈ (f a).calls := by
  obtain ⟨result, calls⟩ := x
  cases result with
  | error e =>
    change c ∈ calls ↔ _
    simp
  | ok a =>
    change c ∈ calls ++ (f a).calls ↔ _
    simp

private theorem not_mem_calls_pure (a : α) : c ∉ (pure a : Recorded α).calls := List.not_mem_nil

private theorem not_mem_calls_lift (x : Except ExprError α) : c ∉ (liftM x : Recorded α).calls :=
  List.not_mem_nil

end Recorded

namespace Expr

/-- Evaluations in two monads are related if each of their steps is. -/
structure Related {m n : Type → Type} [Monad m] [MonadLiftT (Except ExprError) m] [Monad n]
    [MonadLiftT (Except ExprError) n] (R : (α : Type) → m α → n α → Prop)
    (apply : Function → List Value → m Value) (apply' : Function → List Value → n Value) :
    Prop where
  pure {α : Type} (a : α) : R α (pure a) (pure a)
  bind {α β : Type} {x : m α} {y : n α} {f : α → m β} {g : α → n β} : R α x y →
    (∀ a, R β (f a) (g a)) → R β (x >>= f) (y >>= g)
  lift (r : Except ExprError Value) : R Value (liftM r) (liftM r)
  apply (f : Function) (vs : List Value) : R Value (apply f vs) (apply' f vs)

namespace Related
variable {m n : Type → Type} [Monad m] [MonadLiftT (Except ExprError) m] [Monad n]
  [MonadLiftT (Except ExprError) n] {R : (α : Type) → m α → n α → Prop}
  {apply : Function → List Value → m Value} {apply' : Function → List Value → n Value}
  (h : Related R apply apply') (b : Bindings)
include h

private theorem evalAllWith {es : List Expr}
    (hes : ∀ e ∈ es, R Value (e.evalWith apply b) (e.evalWith apply' b)) :
    R (List Value) (evalAllWith apply b es) (evalAllWith apply' b es) := by
  induction es with
  | nil =>
    rw [Expr.evalAllWith, Expr.evalAllWith]
    exact h.pure []
  | cons e es ih =>
    rw [Expr.evalAllWith, Expr.evalAllWith]
    refine h.bind (hes e List.mem_cons_self) fun v => ?_
    exact h.bind (ih fun e' he' => hes e' (List.mem_cons_of_mem e he')) fun vs => h.pure (v :: vs)

theorem evalWith (e : Expr) : R Value (e.evalWith apply b) (e.evalWith apply' b) := by
  induction e with
  | number v =>
    rw [Expr.evalWith, Expr.evalWith]
    exact h.pure _
  | boolean v =>
    rw [Expr.evalWith, Expr.evalWith]
    exact h.pure _
  | var x =>
    rw [Expr.evalWith, Expr.evalWith]
    cases b.get? x with
    | none => exact h.lift _
    | some v => exact h.pure _
  | unary op e ih =>
    rw [Expr.evalWith, Expr.evalWith]
    exact h.bind ih fun v => h.pure _
  | binary op l r ihl ihr =>
    rw [Expr.evalWith, Expr.evalWith]
    refine h.bind ihl fun v => ?_
    cases op.decided? v with
    | none => exact h.bind ihr fun w => h.lift _
    | some w => exact h.pure w
  | call name es ih =>
    rw [Expr.evalWith, Expr.evalWith]
    cases Function.find? name with
    | none => exact h.lift _
    | some f => exact h.bind (h.evalAllWith b ih) fun vs => h.apply f vs

end Related

def recorded (b : Bindings) (e : Expr) : Recorded Value := e.evalWith Recorded.apply b

def recordedAll (b : Bindings) (es : List Expr) : Recorded (List Value) :=
  evalAllWith Recorded.apply b es

section Recorded
variable {b : Bindings} {c : Function × List Value}

private theorem related_result :
    Related (fun α (x : Recorded α) (y : Except ExprError α) => x.result = y) Recorded.apply
      fun f vs => .ok (f.apply vs) where
  pure a := rfl
  bind hx hf := by
    rw [Recorded.result_bind, hx]
    exact congrArg _ (funext hf)
  lift r := rfl
  apply f vs := rfl

/-- To keep record of the calls changes no value and no error. -/
theorem result_recorded (b : Bindings) (e : Expr) : (e.recorded b).result = e.eval b :=
  related_result.evalWith b e

private theorem result_recordedAll (es : List Expr) : (recordedAll b es).result = evalAll b es :=
  related_result.evalAllWith b fun e _ => result_recorded b e

private theorem recordedAll_cons (e : Expr) (es : List Expr) :
    recordedAll b (e :: es) = e.recorded b >>= fun v => recordedAll b es >>= fun vs =>
      pure (v :: vs) := by
  rw [recordedAll, evalAllWith]
  rfl

private theorem mem_calls_unary {op : UnaryOp} {e : Expr} :
    c ∈ ((unary op e).recorded b).calls ↔ c ∈ (e.recorded b).calls := by
  rw [recorded, evalWith, Recorded.mem_calls_bind, ← recorded]
  simp only [Recorded.not_mem_calls_pure, and_false, exists_false, or_false]

private theorem mem_calls_binary {op : BinaryOp} {l r : Expr} :
    c ∈ ((binary op l r).recorded b).calls ↔ c ∈ (l.recorded b).calls ∨
      ∃ v, l.eval b = .ok v ∧ op.decided? v = none ∧ c ∈ (r.recorded b).calls := by
  rw [recorded, evalWith, Recorded.mem_calls_bind, ← recorded, result_recorded]
  refine or_congr_right (exists_congr fun v => and_congr_right fun _ => ?_)
  cases op.decided? v with
  | some w => simp [Recorded.not_mem_calls_pure]
  | none =>
    dsimp only
    rw [Recorded.mem_calls_bind, ← recorded]
    simp [Recorded.not_mem_calls_lift]

private theorem mem_calls_cons {e : Expr} {es : List Expr} :
    c ∈ (recordedAll b (e :: es)).calls ↔
      c ∈ (e.recorded b).calls ∨ ∃ v, e.eval b = .ok v ∧ c ∈ (recordedAll b es).calls := by
  rw [recordedAll_cons, Recorded.mem_calls_bind, result_recorded]
  simp only [Recorded.mem_calls_bind, Recorded.not_mem_calls_pure, and_false, exists_false,
    or_false]

/-- The calls made for arguments are those of each argument before which all have values. -/
theorem mem_calls_all {es : List Expr} :
    c ∈ (recordedAll b es).calls ↔ ∃ before e after, es = before ++ e :: after ∧
      (∃ vs, evalAll b before = .ok vs) ∧ c ∈ (e.recorded b).calls := by
  induction es with
  | nil =>
    rw [recordedAll, evalAllWith]
    simp [Recorded.not_mem_calls_pure]
  | cons first es ih =>
    rw [mem_calls_cons, ih]
    constructor
    · rintro (h | ⟨v, hv, before, e, after, rfl, ⟨vs, hvs⟩, hc⟩)
      · exact ⟨[], first, es, rfl, ⟨[], evalAll_nil b⟩, h⟩
      · refine ⟨first :: before, e, after, rfl, ⟨v :: vs, ?_⟩, hc⟩
        rw [evalAll_cons, hv, hvs]
        rfl
    · rintro ⟨before, e, after, hes, ⟨vs, hvs⟩, hc⟩
      cases before with
      | nil =>
        obtain ⟨rfl, -⟩ := List.cons.inj hes
        exact .inl hc
      | cons e' before =>
        obtain ⟨rfl, rfl⟩ := List.cons.inj hes
        rw [evalAll_cons] at hvs
        obtain ⟨v, hv, hvs⟩ := bind_eq_ok.mp hvs
        obtain ⟨vs', hvs', -⟩ := bind_eq_ok.mp hvs
        exact .inr ⟨v, hv, before, e, after, rfl, ⟨vs', hvs'⟩, hc⟩

private theorem mem_calls_call {name : String} {es : List Expr} :
    c ∈ ((call name es).recorded b).calls ↔ ∃ f, Function.find? name = some f ∧
      (c ∈ (recordedAll b es).calls ∨ ∃ vs, evalAll b es = .ok vs ∧ c = (f, vs)) := by
  rw [recorded, evalWith]
  cases Function.find? name with
  | none => simp [Recorded.not_mem_calls_lift]
  | some f =>
    dsimp only
    rw [Recorded.mem_calls_bind, ← recordedAll, result_recordedAll]
    simp [Recorded.apply]

/-- The evaluation of one expression comes to that of another, which is a direct part of it: the
parts are evaluated from left to right up to the first error, and a right operand only where the
left one does not decide alone. -/
inductive Demands (b : Bindings) : Expr → Expr → Prop
  | left {op : BinaryOp} {l r : Expr} : Demands b (binary op l r) l
  | right {op : BinaryOp} {l r : Expr} {v : Value} : l.eval b = .ok v → op.decided? v = none →
    Demands b (binary op l r) r
  | operand {op : UnaryOp} {e : Expr} : Demands b (unary op e) e
  | argument {name : String} {f : Function} {before after : List Expr} {e : Expr}
    {vs : List Value} : Function.find? name = some f → evalAll b before = .ok vs →
    Demands b (call name (before ++ e :: after)) e

private theorem Demands.mem_calls {e e' : Expr} (h : Demands b e e')
    (hc : c ∈ (e'.recorded b).calls) :
    c ∈ (e.recorded b).calls := by
  cases h with
  | left => exact mem_calls_binary.mpr (.inl hc)
  | right hl hop => exact mem_calls_binary.mpr (.inr ⟨_, hl, hop, hc⟩)
  | operand => exact mem_calls_unary.mpr hc
  | argument hf hbefore =>
    exact mem_calls_call.mpr ⟨_, hf, .inl (mem_calls_all.mpr ⟨_, _, _, rfl, ⟨_, hbefore⟩, hc⟩)⟩

/-- The calls on record are those of the call expressions that the evaluation comes to, with the
values of their arguments. -/
theorem mem_calls_iff {e : Expr} {f : Function} {vs : List Value} :
    (f, vs) ∈ (e.recorded b).calls ↔ ∃ name es,
      Relation.ReflTransGen (Demands b) e (call name es) ∧ Function.find? name = some f ∧
        evalAll b es = .ok vs := by
  constructor
  · intro h
    induction e with
    | number v =>
      rw [recorded, evalWith] at h
      exact absurd h (Recorded.not_mem_calls_pure _)
    | boolean v =>
      rw [recorded, evalWith] at h
      exact absurd h (Recorded.not_mem_calls_pure _)
    | var x =>
      rw [recorded, evalWith] at h
      split at h
      · exact absurd h (Recorded.not_mem_calls_pure _)
      · exact absurd h (Recorded.not_mem_calls_lift _)
    | unary op e ih =>
      obtain ⟨name, es, hpath, hcall⟩ := ih (mem_calls_unary.mp h)
      exact ⟨name, es, .head .operand hpath, hcall⟩
    | binary op l r ihl ihr =>
      rcases mem_calls_binary.mp h with h | ⟨v, hl, hop, h⟩
      · obtain ⟨name, es, hpath, hcall⟩ := ihl h
        exact ⟨name, es, .head .left hpath, hcall⟩
      · obtain ⟨name, es, hpath, hcall⟩ := ihr h
        exact ⟨name, es, .head (.right hl hop) hpath, hcall⟩
    | call name es ih =>
      obtain ⟨g, hfind, h | ⟨vs', hvs, heq⟩⟩ := mem_calls_call.mp h
      · obtain ⟨before, e, after, rfl, ⟨vs', hbefore⟩, hc⟩ := mem_calls_all.mp h
        obtain ⟨name', es', hpath, hcall⟩ := ih e (List.mem_append_right _ List.mem_cons_self) hc
        exact ⟨name', es', .head (.argument hfind hbefore) hpath, hcall⟩
      · obtain ⟨rfl, rfl⟩ := Prod.mk.inj heq
        exact ⟨name, es, .refl, hfind, hvs⟩
  · rintro ⟨name, es, hpath, hfind, hvs⟩
    -- from the call back up to the whole expression, each step keeps it on record
    induction hpath using Relation.ReflTransGen.head_induction_on with
    | refl => exact mem_calls_call.mpr ⟨f, hfind, .inr ⟨vs, hvs, rfl⟩⟩
    | head hstep _ ih => exact hstep.mem_calls ih

/-- The calls on record are all that an evaluation asks of the functions: others that have the same
values there give the same result, whatever they do elsewhere. -/
theorem evalWith_congr {apply : Function → List Value → Except ExprError Value} {e : Expr}
    (hcalls : ∀ c ∈ (e.recorded b).calls, apply c.1 c.2 = .ok (c.1.apply c.2)) :
    e.evalWith apply b = e.eval b := by
  have hrelated : Related (fun α (x : Recorded α) (y : Except ExprError α) =>
      (∀ c ∈ x.calls, apply c.1 c.2 = .ok (c.1.apply c.2)) → y = x.result)
      Recorded.apply apply := {
    pure := fun a _ => rfl
    bind := fun {α β x y f g} hx hf hcalls => by
      rw [hx fun c hc => hcalls c (Recorded.mem_calls_bind.mpr (.inl hc)), Recorded.result_bind]
      cases hresult : x.result with
      | error err => rfl
      | ok a => exact hf a fun c hc =>
          hcalls c (Recorded.mem_calls_bind.mpr (.inr ⟨a, hresult, hc⟩))
    lift := fun r _ => rfl
    apply := fun f vs hcalls => hcalls (f, vs) List.mem_cons_self }
  exact (hrelated.evalWith b e hcalls).trans (result_recorded b e)

end Recorded
end Expr
end PriceFormula
