import PriceFormula.Expr.Parser
import PriceFormula.Proofs.Except

/-! A parser that does not count levels, and what its steps do to the cursor. -/

namespace PriceFormula

abbrev Parser (α : Type) : Type := Cursor → Except ParseError (α × Cursor)

namespace Parser
open MonadParser

/-- Levels are not counted here: each level is read by parsers of its own. -/
instance : MonadParser Parser where
  pure a := fun c => .ok (a, c)
  bind p f := fun c => p c >>= fun r => f r.1 r.2
  cursor := fun c => .ok (c, c)
  move f := fun c => f c >>= fun c => .ok ((), c)
  check r := fun c => r >>= fun a => .ok (a, c)
  deeper _ p := p

/-- The parsers for places that may nest less than `levels` deep. -/
abbrev downFrom (ending : Ending) (levels : Nat) : Nested Parser :=
  within ending (tooDeep ending) levels

section Steps
variable {α β : Type} {c c' : Cursor} {b : β}

@[simp] theorem pure_apply (a : α) (c : Cursor) : (pure a : Parser α) c = .ok (a, c) := rfl

@[simp] theorem bind_apply (p : Parser α) (f : α → Parser β) (c : Cursor) :
    (p >>= f) c = p c >>= fun r => f r.1 r.2 := rfl

@[simp] theorem cursor_apply (c : Cursor) : (cursor : Parser Cursor) c = .ok (c, c) := rfl

@[simp] theorem move_apply (f : Cursor → Except ParseError Cursor) (c : Cursor) :
    (move f : Parser Unit) c = f c >>= fun c => .ok ((), c) := rfl

@[simp] theorem check_apply (r : Except ParseError α) (c : Cursor) :
    (check r : Parser α) c = r >>= fun a => .ok (a, c) := rfl

@[simp] theorem deeper_eq (ending : Ending) (p : Parser α) : deeper ending p = p := rfl

theorem cursor_bind (f : Cursor → Parser β) (c : Cursor) : (cursor >>= f) c = f c c := rfl

theorem move_bind (g : Cursor → Except ParseError Cursor) (f : Unit → Parser β) (c : Cursor) :
    (move g >>= f) c = g c >>= f () := by
  cases h : g c <;> simp [h]

theorem check_bind (r : Except ParseError α) (f : α → Parser β) (c : Cursor) :
    (check r >>= f) c = r >>= fun a => f a c := by
  cases r <;> simp

theorem pure_eq_ok {a a' : α} : (pure a : Parser α) c = .ok (a', c') ↔ a = a' ∧ c = c' := by
  simp

theorem bind_eq_ok {p : Parser α} {f : α → Parser β} :
    (p >>= f) c = .ok (b, c') ↔ ∃ a d, p c = .ok (a, d) ∧ f a d = .ok (b, c') := by
  rw [bind_apply, PriceFormula.bind_eq_ok]
  simp

theorem move_bind_eq_ok {g : Cursor → Except ParseError Cursor} {f : Unit → Parser β} :
    (move g >>= f) c = .ok (b, c') ↔ ∃ d, g c = .ok d ∧ f () d = .ok (b, c') := by
  rw [move_bind, PriceFormula.bind_eq_ok]

theorem check_bind_eq_ok {r : Except ParseError α} {f : α → Parser β} :
    (check r >>= f) c = .ok (b, c') ↔ ∃ a, r = .ok a ∧ f a c = .ok (b, c') := by
  rw [check_bind, PriceFormula.bind_eq_ok]

end Steps

variable {ending : Ending}

def Settled (ending : Ending) (ahead : List Located) : Prop := ahead = [] → ending.stray = none

theorem Settled.cons {l : Located} {rest : List Located} : Settled ending (l :: rest) :=
  fun h => absurd h (List.cons_ne_nil l rest)

theorem Settled.append {taken rest : List Located} (h : Settled ending rest) :
    Settled ending (taken ++ rest) :=
  fun he => h (List.append_eq_nil_iff.mp he).2

/-- From one cursor to another exactly the given tokens were taken, with so many binary operators
among them, and the limit of operators was kept. -/
structure Advances (ending : Ending) (ts : List Token) (operators : Nat) (c c' : Cursor) :
    Prop where
  ahead : ∃ taken, c.ahead = taken ++ c'.ahead ∧ taken.map Located.token = ts
  counted : c'.operators = c.operators + operators
  limited : c'.operators ≤ max c.operators operatorLimit
  settled : Settled ending c.ahead → Settled ending c'.ahead

namespace Advances
variable {ts us : List Token} {m n : Nat} {c c' c'' : Cursor}

theorem refl (c : Cursor) : Advances ending [] 0 c c :=
  ⟨⟨[], rfl, rfl⟩, rfl, Nat.le_max_left _ _, id⟩

theorem trans (h : Advances ending ts m c c') (h' : Advances ending us n c' c'') :
    Advances ending (ts ++ us) (m + n) c c'' := by
  obtain ⟨taken, ha, ht⟩ := h.ahead
  obtain ⟨taken', ha', ht'⟩ := h'.ahead
  refine ⟨⟨taken ++ taken', ?_, ?_⟩, ?_, ?_, h'.settled ∘ h.settled⟩
  · rw [ha, ha', List.append_assoc]
  · rw [List.map_append, ht, ht']
  · rw [h'.counted, h.counted, Nat.add_assoc]
  · have := h.limited
    have := h'.limited
    omega

theorem length_ahead (h : Advances ending ts m c c') :
    c.ahead.length = ts.length + c'.ahead.length := by
  obtain ⟨taken, hahead, rfl⟩ := h.ahead
  rw [hahead, List.length_append, List.length_map]

end Advances

/-- Putting a cursor before tokens succeeds unless only a stray character is ahead. -/
theorem settle_eq_ok {ahead : List Located} {operators : Nat} {c : Cursor} :
    settle ending ahead operators = .ok c ↔ c = ⟨ahead, operators⟩ ∧ Settled ending ahead := by
  unfold settle Settled
  constructor
  · intro h
    split at h
    · nomatch h
    · rename_i hne
      obtain rfl := Except.ok.inj h
      refine ⟨rfl, fun ha => ?_⟩
      cases hs : ending.stray with
      | none => rfl
      | some d => exact absurd hs (hne d ha)
  · rintro ⟨rfl, hs⟩
    split
    · rename_i d hd
      rw [hs rfl] at hd
      nomatch hd
    · rfl

/-- The token at a cursor stands first among those ahead. -/
theorem token?_eq_some {c : Cursor} {t : Token} :
    c.token? = some t ↔ ∃ l rest, c.ahead = l :: rest ∧ l.token = t := by
  unfold Cursor.token?
  cases c.ahead <;> simp

theorem next_advances {c c' : Cursor} {t : Token} (ht : c.token? = some t)
    (h : next ending c = .ok c') : Advances ending [t] 0 c c' := by
  obtain ⟨rfl, hs⟩ := settle_eq_ok.mp h
  obtain ⟨l, rest, ha, hl⟩ := token?_eq_some.mp ht
  exact ⟨⟨[l], by simp [ha], by simp [hl]⟩, rfl, Nat.le_max_left _ _, fun _ => hs⟩

theorem require_advances {c c' : Cursor} {wanted : Token} (h : require ending wanted c = .ok c') :
    Advances ending [wanted] 0 c c' := by
  unfold require at h
  split at h
  · exact next_advances ‹_› h
  · nomatch h

theorem countOperator_advances {c c' : Cursor} (h : countOperator ending c = .ok c') :
    c'.ahead = c.ahead ∧ Advances ending [] 1 c c' := by
  unfold countOperator at h
  split at h
  · obtain rfl := Except.ok.inj h
    refine ⟨rfl, ⟨[], rfl, rfl⟩, rfl, ?_, id⟩
    simp only
    omega
  · nomatch h

/-- An operator of a level at the cursor is counted and then passed. -/
theorem operator?_eq_some {c : Cursor} {level : Nat} {op : BinaryOp}
    (h : c.operator? level = some op) :
    op.level = level ∧ ∃ t, c.token? = some t ∧ t.binaryOp? = some op := by
  obtain ⟨hb, hl⟩ := Option.filter_eq_some_iff.mp h
  obtain ⟨t, ht, hop⟩ := Option.bind_eq_some_iff.mp hb
  exact ⟨by simpa using hl, t, ht, hop⟩

end Parser
end PriceFormula
