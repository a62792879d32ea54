import PriceFormula.Proofs.Expr.Beginning

/-! Where the parser refuses a text. Whatever it has taken so far, some phrase begins with it, and
the token at which it complains is the first with which no phrase goes on. -/

namespace PriceFormula

namespace Progress

def Refuses (s : Progress) : Option Token → Prop
  | some t => s.step t = none
  | none => s.complete = false

def Alike : Option Token → Progress → Progress → Prop
  | some t, s, s' => s.step t = s'.step t
  | none, s, s' => s.complete = s'.complete

private theorem Alike.refl (found : Option Token) (s : Progress) : Alike found s s := by
  cases found <;> rfl

private theorem Alike.trans {found : Option Token} {s s' s'' : Progress} (h : Alike found s s')
    (h' : Alike found s' s'') : Alike found s s'' := by
  cases found with
  | none => exact Eq.trans h h'
  | some t => exact Eq.trans h h'

private theorem Alike.refuses {found : Option Token} {s s' : Progress} (h : Alike found s s')
    (hs : s'.Refuses found) : s.Refuses found := by
  cases found with
  | none => exact Eq.trans h hs
  | some t => exact Eq.trans h hs

private theorem alike_name {found : Option Token} {opened : List Bracket}
    (h : found ≠ some .openParen) : Alike found (name opened) (done opened) := by
  cases found with
  | none => cases opened <;> rfl
  | some t => exact if_neg fun ht => h (congrArg some ht)

private theorem alike_arguments {found : Option Token} {opened : List Bracket}
    (h : found ≠ some .closeParen) :
    Alike found (arguments opened) (operand (.call :: opened)) := by
  cases found with
  | none => rfl
  | some t => exact if_neg fun ht => h (congrArg some ht)

private theorem follow_eq_none {opened : List Bracket} {t : Token} (hop : t.binaryOp? = none)
    (hclose : t = .closeParen → opened = []) (hcomma : t = .comma → opened.head? ≠ some .call) :
    follow opened t = none := by
  unfold follow
  split
  · exact absurd (hclose rfl) (List.cons_ne_nil _ _)
  · exact absurd rfl (hcomma rfl)
  · rw [hop]
    rfl

end Progress

namespace Parser
open Progress

/-- The tokens before a cursor lead to a state, or to one that does the same with what is at the
cursor. -/
structure Reached (input : TokenList) (s : Progress) (c : Cursor) : Prop where
  taken : ∃ taken s₀, input.tokens = taken ++ c.ahead ∧
    (operand []).run (taken.map Located.token) = some s₀ ∧ Alike c.token? s₀ s
  settled : Settled input.ending c.ahead

/-- What the errors of form say of a text: the tokens before the stray character begin a phrase;
those before the cursor do, but not with the token at the cursor behind them. -/
def Points (input : TokenList) : ParseError → Prop
  | .complaint (.stray d) position => input.ending.stray = some d ∧
    position = input.ending.position ∧
    ∃ s, (operand []).run (input.tokens.map Located.token) = some s
  | .complaint (.unexpected _) position | .complaint (.expected _ _) position =>
    ∃ s c, Reached input s c ∧ s.Refuses c.token? ∧ position = Parser.position input.ending c
  | _ => True

private def Stops (level : Nat) (c : Cursor) : Prop :=
  ∀ t op, c.token? = some t → t.binaryOp? = some op → level ≤ op.level

/-- From the beginning of an operand a parser gets to its end or complains in the right place. -/
def Traces (input : TokenList) (level : Nat) (parser : Parser Expr) : Prop :=
  ∀ opened c, Reached input (operand opened) c →
    Ensures (fun r => Reached input (done opened) r.2 ∧ Stops level r.2) (Points input) (parser c)

def TracesAll (input : TokenList) (parser : Parser (List Expr)) : Prop :=
  ∀ opened c, Reached input (arguments opened) c →
    Ensures (fun r => Reached input (done (.call :: opened)) r.2 ∧ Stops (loosest + 1) r.2 ∧
      r.2.token? ≠ some .comma) (Points input) (parser c)

structure Nested.Traced (input : TokenList) (inner : Nested Parser) : Prop where
  expression : Traces input (loosest + 1) inner.expression
  arguments : TracesAll input inner.arguments
  power : Traces input 1 inner.power
  signed : Traces input 0 inner.signed

variable {input : TokenList} {inner : Nested Parser} {s s' : Progress} {c c' : Cursor}
  {opened : List Bracket} {t : Token} {level : Nat}

private theorem Reached.alike (h : Reached input s c) (hs : Alike c.token? s s') :
    Reached input s' c := by
  obtain ⟨taken, s₀, htokens, hrun, halike⟩ := h.taken
  exact ⟨⟨taken, s₀, htokens, hrun, halike.trans hs⟩, h.settled⟩

private theorem Reached.of_ahead (h : Reached input s c) (hc : c'.ahead = c.ahead) :
    Reached input s c' := by
  obtain ⟨⟨taken, s₀, htokens, hrun, halike⟩, hsettled⟩ := h
  refine ⟨⟨taken, s₀, ?_, hrun, ?_⟩, ?_⟩
  · rw [hc, htokens]
  · rwa [Cursor.token?, hc]
  · rwa [hc]

private theorem settle_points {taken ahead : List Located} {n : Nat}
    (htokens : input.tokens = taken ++ ahead)
    (hrun : (operand []).run (taken.map Located.token) = some s) :
    Ensures (Reached input s) (Points input) (settle input.ending ahead n) := by
  cases hsettle : settle input.ending ahead n with
  | ok c =>
    obtain ⟨rfl, hsettled⟩ := settle_eq_ok.mp hsettle
    exact ⟨⟨taken, s, htokens, hrun, .refl _ s⟩, hsettled⟩
  | error err =>
    unfold settle at hsettle
    split at hsettle
    · rename_i d hd
      obtain rfl := Except.error.inj hsettle
      rw [List.append_nil] at htokens
      exact ⟨hd, rfl, s, by rw [htokens, hrun]⟩
    · cases hsettle

private theorem next_points (h : Reached input s c) (ht : c.token? = some t)
    (hs : s.step t = some s') :
    Ensures (Reached input s') (Points input) (next input.ending c) := by
  obtain ⟨taken, s₀, htokens, hrun, halike⟩ := h.taken
  obtain ⟨l, rest, hahead, hl⟩ := token?_eq_some.mp ht
  rw [ht] at halike
  have hstep : s₀.step t = some s' := Eq.trans halike hs
  have htaken : input.tokens = (taken ++ [l]) ++ c.ahead.tail := by
    rw [htokens, hahead, List.append_assoc]
    rfl
  refine settle_points htaken ?_
  rw [List.map_append, run_append, hrun, Option.bind_some, List.map_cons, hl, run_cons, hstep]
  rfl

private theorem countOperator_points (h : Reached input s c) :
    Ensures (fun c' => Reached input s c' ∧ c'.token? = c.token?) (Points input)
      (countOperator input.ending c) := by
  unfold countOperator
  split
  · exact ⟨h.of_ahead rfl, rfl⟩
  · trivial

private theorem Stops.binaryOp?_eq_none (h : Stops (loosest + 1) c) (ht : c.token? = some t) :
    t.binaryOp? = none := by
  cases hop : t.binaryOp? with
  | none => rfl
  | some op => exact absurd op.level_le (Nat.not_le_of_lt (h t op ht hop))

/-- Behind a whole expression only what closes a parenthesis, or goes on with the arguments in it,
may stand. -/
private theorem refuses_done (hstops : Stops (loosest + 1) c)
    (hclose : c.token? = some .closeParen → opened = [])
    (hcomma : c.token? = some .comma → opened.head? ≠ some .call)
    (hend : c.token? = none → opened ≠ []) : (done opened).Refuses c.token? := by
  cases ht : c.token? with
  | none =>
    cases opened with
    | nil => exact absurd rfl (hend ht)
    | cons b outer => rfl
  | some t =>
    refine follow_eq_none (hstops.binaryOp?_eq_none ht) ?_ ?_
    · rintro rfl
      exact hclose ht
    · rintro rfl
      exact hcomma ht

private theorem closeParen_points {b : Bracket} (h : Reached input (done (b :: opened)) c)
    (hstops : Stops (loosest + 1) c) (hcomma : b = .call → c.token? ≠ some .comma) :
    Ensures (Reached input (done opened)) (Points input) (require input.ending .closeParen c) := by
  unfold require
  split
  · exact next_points h ‹_› rfl
  · rename_i hclose
    refine ⟨_, c, h, refuses_done hstops (fun ht => absurd ht hclose) ?_ ?_, rfl⟩
    · intro ht hb
      exact hcomma (Option.some.inj hb) ht
    · exact fun _ => List.cons_ne_nil _ _

private theorem checkCount_points (f : Function) (count : Nat) :
    Ensures (fun _ => True) (Points input) (checkCount f count) := by
  unfold checkCount
  split
  · trivial
  · split
    · split <;> trivial
    · trivial

section Sequences
open MonadParser
variable {α β : Type} {good : α → Prop} {good' : β × Cursor → Prop}

private theorem ensures_bind {p : Parser α} {f : α → Parser β} {good : α × Cursor → Prop}
    (h : Ensures good (Points input) (p c))
    (hf : ∀ a d, p c = .ok (a, d) → good (a, d) → Ensures good' (Points input) (f a d)) :
    Ensures good' (Points input) ((p >>= f) c) :=
  h.bind fun r => hf r.1 r.2

private theorem ensures_move {g : Cursor → Except ParseError Cursor} {f : Unit → Parser β}
    {good : Cursor → Prop} (h : Ensures good (Points input) (g c))
    (hf : ∀ d, g c = .ok d → good d → Ensures good' (Points input) (f () d)) :
    Ensures good' (Points input) ((move g >>= f) c) := by
  rw [move_bind]
  exact h.bind hf

private theorem ensures_check {r : Except ParseError α} {f : α → Parser β}
    (h : Ensures (fun _ => True) (Points input) r)
    (hf : ∀ a, Ensures good' (Points input) (f a c)) :
    Ensures good' (Points input) ((check r >>= f) c) := by
  rw [check_bind]
  exact h.bind fun a _ _ => hf a

end Sequences

private theorem call_points (h : inner.Traced input) {x : String} {start : Nat}
    (hc : Reached input (name opened) c) (ht : c.token? = some .openParen) :
    Ensures (fun r => Reached input (done opened) r.2) (Points input)
      (call input.ending inner x start c) := by
  unfold call
  cases Function.find? x with
  | none => trivial
  | some f =>
    refine ensures_move (next_points hc ht rfl) fun c₁ _ h₁ => ?_
    refine ensures_bind (h.arguments opened c₁ h₁) fun es c₂ _ h₂ => ?_
    obtain ⟨hreached, hstops, hcomma⟩ := h₂
    refine ensures_move (closeParen_points hreached hstops fun _ => hcomma) fun c₃ _ h₃ => ?_
    exact ensures_check (checkCount_points _ _) fun _ => h₃

private theorem primary_points (h : inner.Traced input) (hc : Reached input (operand opened) c)
    (hsign : ∀ s : PrefixSign, c.token? ≠ some s.token) :
    Ensures (fun r => Reached input (done opened) r.2) (Points input)
      (primary input.ending inner c) := by
  unfold primary
  rw [cursor_bind]
  rcases ha : c.ahead with _ | ⟨⟨t, start, stop⟩, rest⟩
  · refine ⟨operand opened, c, hc, ?_, rfl⟩
    rw [Cursor.token?, ha]
    rfl
  have ht : c.token? = some t := token?_eq_some.mpr ⟨_, rest, ha, rfl⟩
  have hrefused (hstep : (operand opened).step t = none) :
      Points input (.complaint (.unexpected c.token?) (position input.ending c)) :=
    ⟨operand opened, c, hc, by rwa [ht], rfl⟩
  cases t with
  | number v => exact ensures_move (next_points hc ht rfl) fun c₁ _ h₁ => h₁
  | boolean v => exact ensures_move (next_points hc ht rfl) fun c₁ _ h₁ => h₁
  | openParen =>
    refine ensures_move (next_points hc ht rfl) fun c₁ _ h₁ => ?_
    refine ensures_bind (h.expression (.group :: opened) c₁ h₁) fun e c₂ _ h₂ => ?_
    obtain ⟨hreached, hstops⟩ := h₂
    exact ensures_move (closeParen_points hreached hstops (by simp)) fun c₃ _ h₃ => h₃
  | identifier x =>
    refine ensures_move (next_points hc ht rfl) fun c₁ _ h₁ => ?_
    -- the name is an operand only now that no parenthesis is seen behind it
    rw [cursor_bind]
    by_cases hopen : c₁.token? = some .openParen
    · rw [if_pos hopen]
      exact call_points h h₁ hopen
    · rw [if_neg hopen]
      exact h₁.alike (alike_name hopen)
  | minus => exact absurd ht (hsign .minus)
  | plus => exact absurd ht (hsign .plus)
  | not => exact absurd ht (hsign .not)
  | _ => exact hrefused rfl

private theorem signed_points (h : inner.Traced input) :
    Traces input 0 (signed input.ending inner) := by
  intro opened c hc
  have hsign (s : PrefixSign) (ht : c.token? = some s.token) :
      Ensures (Reached input (operand opened)) (Points input) (next input.ending c) :=
    next_points hc ht (by cases s <;> rfl)
  have hprimary (hnone : ∀ s : PrefixSign, c.token? ≠ some s.token) :
      Ensures (fun r => Reached input (done opened) r.2 ∧ Stops 0 r.2) (Points input)
        (primary input.ending inner c) :=
    (primary_points h hc hnone).imp fun r hreached => ⟨hreached, fun _ _ _ _ => Nat.zero_le _⟩
  unfold signed
  rw [cursor_bind]
  rcases ht : c.token? with _ | t
  · exact hprimary fun s => by simp [ht]
  cases t with
  | minus =>
    refine ensures_move (hsign .minus ht) fun c₁ _ h₁ => ?_
    exact ensures_bind (h.signed opened c₁ h₁) fun e c₂ _ h₂ => h₂
  | not =>
    refine ensures_move (hsign .not ht) fun c₁ _ h₁ => ?_
    exact ensures_bind (h.signed opened c₁ h₁) fun e c₂ _ h₂ => h₂
  | plus => exact ensures_move (hsign .plus ht) fun c₁ _ h₁ => h.signed opened c₁ h₁
  | _ => exact hprimary fun s => by cases s <;> simp [ht, PrefixSign.token]

private theorem step_operator? (opened : List Bracket) {op : BinaryOp}
    (hop : c.operator? level = some op) :
    ∃ t, c.token? = some t ∧ (done opened).step t = some (operand opened) := by
  obtain ⟨-, t, ht, hop⟩ := operator?_eq_some hop
  obtain rfl := Token.token_of_binaryOp? hop
  exact ⟨op.token, ht, follow_operator opened op⟩

private theorem Stops.succ (h : Stops level c) (hop : c.operator? level = none) :
    Stops (level + 1) c := by
  intro t op ht hbinary
  refine Nat.lt_of_le_of_ne (h t op ht hbinary) ?_
  rintro rfl
  simp [Cursor.operator?, ht, hbinary] at hop

private theorem power_points (h : inner.Traced input) :
    Traces input 1 (power input.ending inner) := by
  intro opened c hc
  unfold power
  refine ensures_bind (signed_points h opened c hc) fun e₁ c₁ _ h₁ => ?_
  obtain ⟨hreached, hstops⟩ := h₁
  rw [cursor_bind]
  cases hop : c₁.operator? 0 with
  | none => exact ⟨hreached, hstops.succ hop⟩
  | some op =>
    obtain ⟨t, ht, hstep⟩ := step_operator? opened hop
    refine ensures_move (countOperator_points hreached) fun c₂ _ h₂ => ?_
    refine ensures_move (next_points h₂.1 (h₂.2.trans ht) hstep) fun c₃ _ h₃ => ?_
    exact ensures_bind (h.power opened c₃ h₃) fun e₂ c₄ _ h₄ => h₄

private theorem Yields.length_ahead_lt {parser : Parser Expr} {rank levels : Nat} {e : Expr}
    {c'' : Cursor} (h : Yields input.ending rank levels parser) (ht : c.token? = some t)
    (hnext : next input.ending c = .ok c') (hread : parser c' = .ok (e, c'')) :
    c''.ahead.length < c.ahead.length := by
  obtain ⟨p, -, -, hadvances⟩ := h _ _ _ hread
  have htoken := (next_advances ht hnext).length_ahead
  have hphrase := hadvances.length_ahead
  rw [List.length_singleton] at htoken
  omega

private theorem token?_eq_none (h : c.ahead.length ≤ 0) : c.token? = none := by
  rw [Cursor.token?, List.eq_nil_of_length_eq_zero (Nat.le_zero.mp h)]
  rfl

/-- A chain that may take a turn for every token ahead stops only where no operator of its level
stands. -/
private theorem chainFrom_points {parser : Parser Expr} {rank levels turns : Nat} {e : Expr}
    (h : Traces input level parser) (hyields : Yields input.ending rank levels parser)
    (hc : Reached input (done opened) c) (hstops : Stops level c)
    (hturns : c.ahead.length ≤ turns) :
    Ensures (fun r => Reached input (done opened) r.2 ∧ Stops (level + 1) r.2) (Points input)
      (chainFrom input.ending level parser turns e c) := by
  induction turns generalizing c e with
  | zero =>
    refine ⟨hc, fun t op ht => ?_⟩
    rw [token?_eq_none hturns] at ht
    cases ht
  | succ turns ih =>
    unfold chainFrom
    rw [cursor_bind]
    cases hop : c.operator? level with
    | none => exact ⟨hc, hstops.succ hop⟩
    | some op =>
      obtain ⟨t, ht, hstep⟩ := step_operator? opened hop
      refine ensures_move (countOperator_points hc) fun c₁ hcount h₁ => ?_
      have ht₁ := h₁.2.trans ht
      refine ensures_move (next_points h₁.1 ht₁ hstep) fun c₂ hnext h₂ => ?_
      refine ensures_bind (h opened c₂ h₂) fun e₁ c₃ hread h₃ => ?_
      -- an operand takes a token, so a turn fewer is enough for the rest
      have hshorter := hyields.length_ahead_lt ht₁ hnext hread
      rw [(countOperator_advances hcount).1] at hshorter
      have hleft : c₃.ahead.length ≤ turns := by omega
      exact ih h₃.1 h₃.2 hleft

private theorem atLevel_points {levels : Nat} (h : inner.Traced input)
    (hsound : inner.Sound input.ending levels) (level : Nat) :
    Traces input (level + 1) (atLevel input.ending inner level) := by
  induction level with
  | zero => exact power_points h
  | succ level ih =>
    intro opened c hc
    unfold atLevel chain
    refine ensures_bind (ih opened c hc) fun e₁ c₁ _ h₁ => ?_
    rw [cursor_bind]
    exact chainFrom_points ih (atLevel_yields hsound level) h₁.1 h₁.2 (Nat.le_refl _)

private theorem moreArguments_points {argument : Parser Expr} {rank levels turns : Nat}
    (h : Traces input (loosest + 1) argument) (hyields : Yields input.ending rank levels argument)
    (hc : Reached input (done (.call :: opened)) c) (hstops : Stops (loosest + 1) c)
    (hturns : c.ahead.length ≤ turns) :
    Ensures (fun r => Reached input (done (.call :: opened)) r.2 ∧ Stops (loosest + 1) r.2 ∧
      r.2.token? ≠ some .comma) (Points input)
      (moreArguments input.ending argument turns c) := by
  induction turns generalizing c with
  | zero =>
    refine ⟨hc, hstops, ?_⟩
    dsimp only
    rw [token?_eq_none hturns]
    simp
  | succ turns ih =>
    unfold moreArguments
    rw [cursor_bind]
    by_cases hcomma : c.token? = some .comma
    · rw [if_pos hcomma]
      refine ensures_move (next_points hc hcomma rfl) fun c₁ hnext h₁ => ?_
      refine ensures_bind (h (.call :: opened) c₁ h₁) fun e₁ c₂ hread h₂ => ?_
      have hshorter := hyields.length_ahead_lt hcomma hnext hread
      have hleft : c₂.ahead.length ≤ turns := by omega
      exact ensures_bind (ih h₂.1 h₂.2 hleft) fun es c₃ _ h₃ => h₃
    · rw [if_neg hcomma]
      exact ⟨hc, hstops, hcomma⟩

private theorem argumentList_points {argument : Parser Expr} {rank levels : Nat}
    (h : Traces input (loosest + 1) argument) (hyields : Yields input.ending rank levels argument) :
    TracesAll input (argumentList input.ending argument) := by
  intro opened c hc
  unfold argumentList
  rw [cursor_bind]
  by_cases hclose : c.token? = some .closeParen
  · rw [if_pos hclose]
    refine ⟨hc.alike ?_, fun t op ht hop => ?_, ?_⟩
    · rw [hclose]
      rfl
    · obtain rfl := Option.some.inj (hclose.symm.trans ht)
      cases hop
    · dsimp only
      rw [hclose]
      simp
  · rw [if_neg hclose]
    have hoperand := hc.alike (alike_arguments hclose)
    refine ensures_bind (h (.call :: opened) c hoperand) fun e₁ c₁ _ h₁ => ?_
    rw [cursor_bind]
    exact ensures_bind (moreArguments_points h hyields h₁.1 h₁.2 (Nat.le_refl _))
      fun es c₂ _ h₂ => h₂

/-- The parsers for every number of levels complain in the right place. -/
theorem downFrom_traced (input : TokenList) (levels : Nat) :
    (downFrom input.ending levels).Traced input := by
  induction levels with
  | zero => constructor <;> intro opened c hc <;> trivial
  | succ levels ih =>
    have hsound := downFrom_sound input.ending levels
    have hexpression := atLevel_points ih hsound loosest
    exact ⟨hexpression, argumentList_points hexpression (atLevel_yields hsound loosest),
      power_points ih, signed_points ih⟩

end Parser

/-- Refused tokens are refused at the first one that no phrase can have there. -/
theorem Expr.ofTokens_points (input : TokenList) :
    Ensures (fun _ => True) (Parser.Points input) (ofTokens input) := by
  have hread := (Parser.downFrom_traced input (nestingLimit + 1)).expression
  rw [ofTokens_eq]
  have hbegin : input.tokens = [] ++ input.tokens := rfl
  refine (Parser.settle_points hbegin rfl).bind fun c _ hc => ?_
  refine (hread [] c hc).bind fun r _ h₁ => ?_
  obtain ⟨e, c₁⟩ := r
  obtain ⟨hreached, hstops⟩ := h₁
  dsimp only
  split
  · trivial
  · rename_i hmore
    refine ⟨_, c₁, hreached, Parser.refuses_done hstops (fun _ => rfl) ?_ ?_, rfl⟩
    · simp
    · intro hend
      simp [Cursor.token?] at hend
      simp [hend] at hmore

/-- Where the machine refuses what is at the cursor, the tokens before it begin a phrase, but none
goes on with the token there or ends there. -/
theorem Parser.Reached.viable {input : TokenList} {s : Progress} {c : Cursor}
    (h : Reached input s c) (hs : s.Refuses c.token?) :
    ∃ taken, input.tokens = taken ++ c.ahead ∧ Phrase.Viable (taken.map Located.token) ∧
      (∀ t, c.token? = some t → ¬Phrase.Viable (taken.map Located.token ++ [t])) ∧
      (c.token? = none → ¬Phrase.Sentence (taken.map Located.token)) := by
  obtain ⟨taken, s₀, htokens, hrun, halike⟩ := h.taken
  have hrefuses := halike.refuses hs
  refine ⟨taken, htokens, Phrase.viable_iff.mpr ⟨s₀, hrun⟩, ?_, ?_⟩
  · intro t ht hviable
    rw [ht] at hrefuses
    have hnone : s₀.step t = none := hrefuses
    obtain ⟨s', hrun'⟩ := Phrase.viable_iff.mp hviable
    rw [Progress.run_append, hrun, Option.bind_some, Progress.run_cons, hnone] at hrun'
    cases hrun'
  · intro ht hsentence
    rw [ht] at hrefuses
    have hopen : s₀.complete = false := hrefuses
    obtain ⟨s', hrun', hcomplete⟩ := Phrase.sentence_iff.mp hsentence
    rw [hrun] at hrun'
    obtain rfl := Option.some.inj hrun'
    rw [hopen] at hcomplete
    cases hcomplete

end PriceFormula
