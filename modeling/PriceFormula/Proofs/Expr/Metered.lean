import PriceFormula.Proofs.Expr.Cursor

/-! Counting levels and counting them down. The parser that counts the levels that are open agrees
with the one that is built for the levels that are left, whatever is kept of its steps. -/

namespace PriceFormula

/-- What is kept stays good at a step with so many levels open. -/
def Log.Keeps {σ : Type} [Log σ] (good : σ → Prop) (depth : Nat) : Prop :=
  ∀ log, good log → good (Log.note depth log)

/-- All levels are kept, the latest first. -/
instance : Log (List Nat) where
  note depth log := depth :: log

namespace Metered
open MonadParser

variable {σ α β : Type} {ending : Ending} {depth : Nat} {good : σ → Prop}

theorem bind_of_ok {q : Metered σ α} {m m' : Meter σ} {a : α} (h : q m = (.ok a, m'))
    (g : α → Metered σ β) : (q >>= g) m = g a m' := by
  simp only [bind, h]

theorem bind_of_error {q : Metered σ α} {m m' : Meter σ} {e : ParseError}
    (h : q m = (.error e, m')) (g : α → Metered σ β) : (q >>= g) m = (.error e, m') := by
  simp only [bind, h]

inductive Agrees (good : σ → Prop) (depth : Nat) :
    Except ParseError (α × Cursor) → Except ParseError α × Meter σ → Prop
  | ok {a : α} {m : Meter σ} : m.depth = depth → good m.log →
    Agrees good depth (.ok (a, m.cursor)) (.ok a, m)
  | error {e : ParseError} {m : Meter σ} : good m.log → Agrees good depth (.error e) (.error e, m)

private theorem Agrees.result_eq {r : Except ParseError (α × Cursor)}
    {result : Except ParseError α × Meter σ}
    (h : Agrees good depth r result) : result.1 = r.map Prod.fst := by
  cases h <;> rfl

private theorem Agrees.log_good {r : Except ParseError (α × Cursor)}
    {result : Except ParseError α × Meter σ}
    (h : Agrees good depth r result) : good result.2.log := by
  cases h <;> assumption

def Tracks (good : σ → Prop) (depth : Nat) (p : Parser α) (q : Metered σ α) : Prop :=
  ∀ m : Meter σ, m.depth = depth → good m.log → Agrees good depth (p m.cursor) (q m)

section Steps
variable {p : Parser α} {q : Metered σ α}

private theorem Tracks.pure (a : α) : Tracks good depth (pure a) (pure a) := by
  intro m hdepth hgood
  exact .ok hdepth hgood

private theorem Tracks.bind {f : α → Parser β} {g : α → Metered σ β} (h : Tracks good depth p q)
    (hf : ∀ a, Tracks good depth (f a) (g a)) : Tracks good depth (p >>= f) (q >>= g) := by
  intro m hdepth hgood
  have hagrees := h m hdepth hgood
  rw [Parser.bind_apply]
  generalize p m.cursor = r at hagrees
  generalize hq : q m = result at hagrees
  cases hagrees with
  | ok hdepth' hgood' =>
    rw [bind_of_ok hq]
    exact hf _ _ hdepth' hgood'
  | error hgood' =>
    rw [bind_of_error hq]
    exact .error hgood'

variable [Log σ]

private theorem Tracks.check (r : Except ParseError α) :
    Tracks good depth (check r) (check r : Metered σ α) := by
  intro m hdepth hgood
  cases r with
  | ok a => exact .ok hdepth hgood
  | error e => exact .error hgood

/-- One level deeper the parser that counts agrees as well: it may open the level, or it fails where
the other parser may go no deeper. -/
private theorem Tracks.deeper (hlimit : depth ≤ nestingLimit)
    (hinner : depth < nestingLimit → Tracks good (depth + 1) p q)
    (hlast : depth = nestingLimit → ∀ c, p c = Parser.refuse ending .nestedTooDeeply c) :
    Tracks good depth p (deeper ending q) := by
  intro m hdepth hgood
  subst hdepth
  rcases Nat.lt_or_eq_of_le hlimit with hlt | heq
  · have henter : enter ending m = (.ok (), { m with depth := m.depth + 1 }) :=
      if_neg (Nat.not_lt.mpr hlt)
    have hagrees := hinner hlt { m with depth := m.depth + 1 } rfl hgood
    change Agrees good m.depth (p m.cursor) ((enter ending >>= fun _ => _) m)
    rw [bind_of_ok henter]
    dsimp only at hagrees
    generalize p m.cursor = r at hagrees
    generalize hq : q { m with depth := m.depth + 1 } = result at hagrees
    cases hagrees with
    | @ok a m' hdepth' hgood' =>
      rw [bind_of_ok hq]
      exact .ok (m := { m' with depth := m'.depth - 1 }) (by simp [hdepth']) hgood'
    | error hgood' =>
      rw [bind_of_error hq]
      exact .error hgood'
  · have henter : enter ending m = (.error (.complaint .nestedTooDeeply
        (Parser.position ending m.cursor)), { m with depth := m.depth + 1 }) :=
      if_pos (Nat.lt_succ_of_le (Nat.le_of_eq heq.symm))
    change Agrees good m.depth (p m.cursor) ((enter ending >>= fun _ => _) m)
    rw [bind_of_error henter, hlast heq]
    exact .error (m := { m with depth := m.depth + 1 }) hgood

variable (hkeeps : Log.Keeps good depth)
include hkeeps

private theorem Tracks.cursor : Tracks good depth cursor cursor := by
  intro m hdepth hgood
  subst hdepth
  exact .ok (m := { m with log := Log.note m.depth m.log }) rfl (hkeeps _ hgood)

private theorem Tracks.move (f : Cursor → Except ParseError Cursor) :
    Tracks good depth (move f) (move f) := by
  intro m hdepth hgood
  subst hdepth
  have hnoted := hkeeps _ hgood
  rw [Parser.move_apply]
  cases hf : f m.cursor with
  | ok c =>
    have hmove : (MonadParser.move f : Metered σ Unit) m =
        (.ok (), { m with cursor := c, log := Log.note m.depth m.log }) := by
      simp [MonadParser.move, hf]
    rw [hmove]
    exact .ok (m := { m with cursor := c, log := Log.note m.depth m.log }) rfl hnoted
  | error e =>
    have hmove : (MonadParser.move f : Metered σ Unit) m =
        (.error e, { m with log := Log.note m.depth m.log }) := by
      simp [MonadParser.move, hf]
    rw [hmove]
    exact .error (m := { m with log := Log.note m.depth m.log }) hnoted

private theorem Tracks.moreArguments {p : Parser Expr} {q : Metered σ Expr}
    (h : Tracks good depth p q)
    (turns : Nat) :
    Tracks good depth (Parser.moreArguments ending p turns)
      (Parser.moreArguments ending q turns) := by
  induction turns with
  | zero => exact .pure _
  | succ turns ih =>
    rw [Parser.moreArguments, Parser.moreArguments]
    refine .bind (.cursor hkeeps) fun c => ?_
    split
    · refine .bind (.move hkeeps _) fun _ => ?_
      exact .bind h fun first => .bind ih fun others => .pure _
    · exact .pure _

theorem Tracks.argumentList {p : Parser Expr} {q : Metered σ Expr} (h : Tracks good depth p q) :
    Tracks good depth (Parser.argumentList ending p) (Parser.argumentList ending q) := by
  refine .bind (.cursor hkeeps) fun c => ?_
  split
  · exact .pure _
  · refine .bind h fun first => .bind (.cursor hkeeps) fun c => ?_
    exact .bind (h.moreArguments hkeeps _) fun others => .pure _

private theorem Tracks.chainFrom {p : Parser Expr} {q : Metered σ Expr} (h : Tracks good depth p q)
    (level : Nat) (turns : Nat) (left : Expr) :
    Tracks good depth (Parser.chainFrom ending level p turns left)
      (Parser.chainFrom ending level q turns left) := by
  induction turns generalizing left with
  | zero => exact .pure _
  | succ turns ih =>
    rw [Parser.chainFrom, Parser.chainFrom]
    refine .bind (.cursor hkeeps) fun c => ?_
    cases c.operator? level with
    | none => exact .pure _
    | some op =>
      refine .bind (.move hkeeps _) fun _ => .bind (.move hkeeps _) fun _ => ?_
      exact .bind h fun right => ih _

private theorem Tracks.chain {p : Parser Expr} {q : Metered σ Expr} (h : Tracks good depth p q)
    (level : Nat) :
    Tracks good depth (Parser.chain ending level p) (Parser.chain ending level q) :=
  .bind h fun left => .bind (.cursor hkeeps) fun _ => h.chainFrom hkeeps level _ left

end Steps

structure Nested.Tracked [Log σ] (good : σ → Prop) (ending : Ending) (depth : Nat)
    (inner : Parser.Nested Parser) (deep : Parser.Nested (Metered σ)) : Prop where
  expression : Tracks good depth inner.expression (deeper ending deep.expression)
  arguments : Tracks good depth inner.arguments (deeper ending deep.arguments)
  power : Tracks good depth inner.power (deeper ending deep.power)
  signed : Tracks good depth inner.signed (deeper ending deep.signed)

namespace Nested.Tracked
variable [Log σ] {inner : Parser.Nested Parser} {deep : Parser.Nested (Metered σ)}
  (hkeeps : Log.Keeps good depth) (h : Nested.Tracked good ending depth inner deep)
include hkeeps h

theorem call (name : String) (start : Nat) :
    Tracks good depth (Parser.call ending inner name start)
      (Parser.call ending deep name start) := by
  unfold Parser.call
  cases Function.find? name with
  | none => exact .check _
  | some f =>
    refine .bind (.move hkeeps _) fun _ => .bind h.arguments fun es => ?_
    exact .bind (.move hkeeps _) fun _ => .bind (.check _) fun _ => .pure _

theorem primary : Tracks good depth (Parser.primary ending inner) (Parser.primary ending deep) := by
  refine .bind (.cursor hkeeps) fun c => ?_
  rcases c.ahead with _ | ⟨⟨t, start, stop⟩, rest⟩
  · exact .check _
  cases t with
  | number v => exact .bind (.move hkeeps _) fun _ => .pure _
  | boolean v => exact .bind (.move hkeeps _) fun _ => .pure _
  | openParen =>
    refine .bind (.move hkeeps _) fun _ => .bind h.expression fun e => ?_
    exact .bind (.move hkeeps _) fun _ => .pure _
  | identifier name =>
    refine .bind (.move hkeeps _) fun _ => .bind (.cursor hkeeps) fun c => ?_
    split
    · exact h.call hkeeps name start
    · exact .pure _
  | _ => exact .check _

theorem operand : Tracks good depth (Parser.signed ending inner) (Parser.signed ending deep) := by
  refine .bind (.cursor hkeeps) fun c => ?_
  rcases c.token? with _ | t
  · exact h.primary hkeeps
  cases t with
  | plus => exact .bind (.move hkeeps _) fun _ => h.signed
  | minus => exact .bind (.move hkeeps _) fun _ => .bind h.signed fun e => .pure _
  | not => exact .bind (.move hkeeps _) fun _ => .bind h.signed fun e => .pure _
  | _ => exact h.primary hkeeps

private theorem operandOrPower :
    Tracks good depth (Parser.power ending inner) (Parser.power ending deep) := by
  refine .bind (h.operand hkeeps) fun left => .bind (.cursor hkeeps) fun c => ?_
  cases c.operator? 0 with
  | none => exact .pure _
  | some op =>
    refine .bind (.move hkeeps _) fun _ => .bind (.move hkeeps _) fun _ => ?_
    exact .bind h.power fun right => .pure _

theorem atLevel (level : Nat) :
    Tracks good depth (Parser.atLevel ending inner level) (Parser.atLevel ending deep level) := by
  induction level with
  | zero => exact h.operandOrPower hkeeps
  | succ level ih => exact ih.chain hkeeps (level + 1)

end Nested.Tracked

variable [Log σ]

/-- The counter lets as many levels open as are left to the other parser. There are turns enough if
there is one for each of them, whatever comes behind. -/
theorem within_tracked (hkeeps : ∀ depth ≤ nestingLimit, Log.Keeps good depth)
    (beyond : Parser.Nested (Metered σ))
    {left turns : Nat} (hleft : depth + left = nestingLimit) (hturns : left ≤ turns) :
    Nested.Tracked good ending depth (Parser.downFrom ending left)
      (Parser.within ending beyond turns) := by
  -- on the levels left: with none of them both refuse, otherwise both go on one level deeper
  induction left generalizing depth turns with
  | zero =>
    have hrefused {α : Type} {p : Parser α} (q : Metered σ α)
        (hp : ∀ c, p c = Parser.refuse ending .nestedTooDeeply c) :
        Tracks good depth p (deeper ending q) :=
      .deeper (Nat.le_of_eq hleft) (fun hlt => absurd hleft (Nat.ne_of_lt hlt)) fun _ => hp
    exact ⟨hrefused _ fun _ => rfl, hrefused _ fun _ => rfl, hrefused _ fun _ => rfl,
      hrefused _ fun _ => rfl⟩
  | succ left ih =>
    obtain ⟨turns, rfl⟩ : ∃ n, turns = n + 1 := ⟨turns - 1, by omega⟩
    have hlimit : depth + 1 ≤ nestingLimit := by omega
    have hinner : Nested.Tracked good ending (depth + 1)
        (Parser.downFrom ending left) (Parser.within ending beyond turns) :=
      ih (by omega) (by omega)
    have hopen {α : Type} {p : Parser α} {q : Metered σ α} (h : Tracks good (depth + 1) p q) :
        Tracks good depth p (deeper ending q) :=
      .deeper (Nat.le_of_succ_le hlimit) (fun _ => h) fun heq => absurd heq (by omega)
    have hexpression := hinner.atLevel (hkeeps _ hlimit) Parser.loosest
    exact ⟨hopen hexpression, hopen (hexpression.argumentList (hkeeps _ hlimit)),
      hopen (hinner.operandOrPower (hkeeps _ hlimit)), hopen (hinner.operand (hkeeps _ hlimit))⟩

private theorem whole_tracks (hkeeps : ∀ depth ≤ nestingLimit, Log.Keeps good depth)
    (beyond : Parser.Nested (Metered σ)) {turns : Nat} (hturns : nestingLimit < turns) :
    Tracks good 0 (Parser.whole ending (Parser.tooDeep ending) (nestingLimit + 1))
      (Parser.whole ending beyond turns) := by
  obtain ⟨turns, rfl⟩ : ∃ n, turns = n + 1 := ⟨turns - 1, by omega⟩
  have hinner : Nested.Tracked good ending 0
      (Parser.downFrom ending nestingLimit)
      (Parser.within ending beyond turns) :=
    within_tracked hkeeps beyond (Nat.zero_add _) (Nat.le_of_lt_succ hturns)
  have hbegin := hkeeps 0 (Nat.zero_le _)
  refine .bind (.move hbegin _) fun _ => ?_
  refine .bind (hinner.atLevel hbegin Parser.loosest) fun e => .bind (.cursor hbegin) fun c => ?_
  split
  · exact .pure _
  · exact .check _

private theorem run_agrees (hkeeps : ∀ depth ≤ nestingLimit, Log.Keeps good depth)
    (beyond : Parser.Nested (Metered σ)) {turns : Nat} (hturns : nestingLimit < turns) {log : σ}
    (hlog : good log) (input : TokenList) :
    Agrees good 0
      ((Parser.whole input.ending (Parser.tooDeep input.ending) (nestingLimit + 1) : Parser Expr)
        ⟨input.tokens, 0⟩) (run beyond turns log input) :=
  whole_tracks hkeeps beyond hturns ⟨⟨input.tokens, 0⟩, 0, log⟩ rfl hlog

end Metered

namespace Expr

private theorem ofTokens_eq_whole (input : TokenList) :
    ofTokens input =
      ((Parser.whole input.ending (Parser.tooDeep input.ending) (nestingLimit + 1) : Parser Expr)
        ⟨input.tokens, 0⟩).map Prod.fst := by
  have hkeeps : ∀ depth ≤ nestingLimit, Log.Keeps (fun _ : Unit => True) depth :=
    fun _ _ _ _ => trivial
  exact (Metered.run_agrees hkeeps _ (Nat.lt_succ_self _) trivial input).result_eq

/-- Tokens are parsed by the parser that counts levels down. -/
theorem ofTokens_eq (input : TokenList) :
    ofTokens input = Parser.settle input.ending input.tokens 0 >>= fun c =>
      (Parser.downFrom input.ending (nestingLimit + 1)).expression c >>=
        fun r => if r.2.ahead.isEmpty then .ok r.1
          else Parser.refuse input.ending (.unexpected r.2.token?) r.2 := by
  rw [ofTokens_eq_whole, Parser.whole, Parser.move_bind]
  cases Parser.settle input.ending input.tokens 0 with
  | error e => rfl
  | ok c =>
    rw [ok_bind, ok_bind, Parser.bind_apply]
    cases (Parser.downFrom input.ending (nestingLimit + 1)).expression c with
    | error e => rfl
    | ok r =>
      rw [ok_bind, ok_bind, Parser.cursor_bind]
      split <;> rfl

end Expr

/-- A parser that only counts the levels that are open, and that comes back to itself more often
than levels may be open, gives the same result, whatever comes behind and whatever it keeps. What it
kept until its end or its failure is good if a step with no more levels open than may be keeps it
so. -/
theorem Metered.run_eq {σ : Type} [Log σ] {good : σ → Prop}
    (hkeeps : ∀ depth ≤ nestingLimit, Log.Keeps good depth) (beyond : Parser.Nested (Metered σ))
    {turns : Nat} (hturns : nestingLimit < turns) {log : σ} (hlog : good log) (input : TokenList) :
    (run beyond turns log input).1 = Expr.ofTokens input ∧
      good (run beyond turns log input).2.log := by
  have hagrees := run_agrees hkeeps beyond hturns hlog input
  exact ⟨hagrees.result_eq.trans (Expr.ofTokens_eq_whole input).symm, hagrees.log_good⟩

end PriceFormula
