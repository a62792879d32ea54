namespace PriceFormula

variable {ε α β : Type}

instance decidableEqExcept [DecidableEq ε] [DecidableEq α] : DecidableEq (Except ε α)
  | .ok a, .ok b => decidable_of_iff (a = b) (by simp)
  | .error e, .error e' => decidable_of_iff (e = e') (by simp)
  | .ok _, .error _ => isFalse (by simp)
  | .error _, .ok _ => isFalse (by simp)

/-- A sequence of two steps succeeds exactly when both do. -/
theorem bind_eq_ok {x : Except ε α} {f : α → Except ε β} {b : β} :
    (x >>= f) = .ok b ↔ ∃ a, x = .ok a ∧ f a = .ok b := by
  cases x <;> simp [bind, Except.bind]

/-- A sequence of two steps fails with the error of the first one that fails. -/
theorem bind_eq_error {x : Except ε α} {f : α → Except ε β} {e : ε} :
    (x >>= f) = .error e ↔ x = .error e ∨ ∃ a, x = .ok a ∧ f a = .error e := by
  cases x <;> simp [bind, Except.bind]

@[simp] theorem ok_bind (a : α) (f : α → Except ε β) : (Except.ok a >>= f) = f a := rfl

@[simp] theorem error_bind (e : ε) (f : α → Except ε β) : (Except.error e >>= f) = .error e := rfl

theorem mapError_eq_ok {ε' : Type} {x : Except ε α} {f : ε → ε'} {a : α} :
    x.mapError f = .ok a ↔ x = .ok a := by
  cases x with
  | ok v =>
    change (Except.ok v : Except ε' α) = .ok a ↔ (Except.ok v : Except ε α) = .ok a
    simp
  | error e =>
    change (Except.error (f e) : Except ε' α) = .ok a ↔ (Except.error e : Except ε α) = .ok a
    simp

def Ensures (good : α → Prop) (bad : ε → Prop) : Except ε α → Prop
  | .ok a => good a
  | .error e => bad e

theorem Ensures.imp {good good' : α → Prop} {bad : ε → Prop} {x : Except ε α}
    (h : Ensures good bad x) (himp : ∀ a, good a → good' a) : Ensures good' bad x := by
  cases x with
  | ok a => exact himp a h
  | error e => exact h

/-- A sequence of two steps keeps what both keep. -/
theorem Ensures.bind {good : α → Prop} {good' : β → Prop} {bad : ε → Prop} {x : Except ε α}
    {f : α → Except ε β} (h : Ensures good bad x)
    (hf : ∀ a, x = .ok a → good a → Ensures good' bad (f a)) : Ensures good' bad (x >>= f) := by
  cases x with
  | ok a => exact hf a rfl h
  | error e => exact h

end PriceFormula
