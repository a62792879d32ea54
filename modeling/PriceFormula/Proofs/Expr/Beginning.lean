import PriceFormula.Proofs.Expr.Minimal

/-! The beginnings of phrases. A machine with a stack of open parentheses reads tokens: it accepts
exactly the tokens of phrases, and it gets through a list of tokens exactly if some phrase begins
with them. -/

namespace PriceFormula

private theorem BinaryOp.one_le_leftRank (op : BinaryOp) : 1 ≤ op.leftRank := by
  rw [leftRank]
  split <;> omega

private theorem BinaryOp.level_le_leftRank {op op' : BinaryOp} (h : ¬op'.level + 2 ≤ op.rightRank) :
    op.level + 2 ≤ op'.leftRank := by
  have hpower := op.level_eq_zero_iff
  have hpower' := op'.level_eq_zero_iff
  rw [rightRank] at h
  rw [leftRank]
  split at h <;> split <;> simp_all

namespace Phrase

def withSign (s : PrefixSign) : Phrase → Phrase
  | binary op l r => binary op (withSign s l) r
  | p => signed s p

/-- The phrase with an operand and an operator before it. As much of it becomes the right side of
the operator as that may hold. -/
private def withLeft (a : Phrase) (op : BinaryOp) : Phrase → Phrase
  | binary op' l r =>
    if op'.level + 2 ≤ op.rightRank then binary op a (binary op' l r)
    else binary op' (withLeft a op l) r
  | p => binary op a p

section Grouping
variable {s : PrefixSign} {a p : Phrase} {op : BinaryOp}

private theorem tokens_withSign : (withSign s p).tokens = s.token :: p.tokens := by
  induction p with
  | binary op l r ihl _ => rw [withSign, tokens, ihl, tokens, List.cons_append]
  | number | boolean | var | parens | call | signed => simp [withSign, tokens]

private theorem tokens_withLeft : (withLeft a op p).tokens = a.tokens ++ op.token :: p.tokens := by
  induction p with
  | binary op' l r ihl _ =>
    rw [withLeft]
    split
    · rw [tokens]
    · rw [tokens, ihl, tokens, List.append_assoc, List.cons_append]
  | number | boolean | var | parens | call | signed => simp [withLeft, tokens]

private theorem rank_withSign_le : (withSign s p).rank ≤ max 1 p.rank := by
  cases p <;> simp [withSign, rank]

private theorem rank_withLeft_le : (withLeft a op p).rank ≤ max (op.level + 2) p.rank := by
  cases p with
  | binary op' l r =>
    rw [withLeft]
    split
    · exact Nat.le_max_left _ _
    · exact Nat.le_max_right _ _
  | number | boolean | var | parens | call | signed => exact Nat.le_max_left _ _

private theorem grammatical_withSign (h : p.Grammatical) : (withSign s p).Grammatical := by
  induction p with
  | binary op l r ihl _ =>
    rw [grammatical_binary] at h
    obtain ⟨⟨hl, hr⟩, hgl, hgr⟩ := h
    rw [withSign, grammatical_binary]
    refine ⟨⟨?_, hr⟩, ihl hgl, hgr⟩
    exact Nat.le_trans rank_withSign_le (Nat.max_le.mpr ⟨op.one_le_leftRank, hl⟩)
  | number | boolean | var | parens | call =>
    rw [withSign, Grammatical]
    · exact ⟨Nat.zero_le 1, h⟩
    · simp
  | signed =>
    rw [withSign, Grammatical]
    · exact ⟨Nat.le_refl 1, h⟩
    · simp

private theorem grammatical_withLeft (ha : a.rank ≤ 1) (hga : a.Grammatical) (h : p.Grammatical) :
    (withLeft a op p).Grammatical := by
  have hleft := Nat.le_trans ha op.one_le_leftRank
  induction p with
  | binary op' l r ihl _ =>
    rw [withLeft]
    split
    · rename_i hfits
      rw [grammatical_binary]
      exact ⟨⟨hleft, hfits⟩, hga, h⟩
    · rename_i hloose
      rw [grammatical_binary] at h
      obtain ⟨⟨hl, hr⟩, hgl, hgr⟩ := h
      rw [grammatical_binary]
      refine ⟨⟨?_, hr⟩, ihl hgl, hgr⟩
      exact Nat.le_trans rank_withLeft_le (Nat.max_le.mpr ⟨op.level_le_leftRank hloose, hl⟩)
  | number | boolean | var | parens | call | signed =>
    rw [withLeft, grammatical_binary]
    · refine ⟨⟨hleft, ?_⟩, hga, h⟩
      rw [rank, BinaryOp.rightRank]
      split <;> omega
    · simp

end Grouping
end Phrase

inductive Bracket where
  | group | call

/-- How far the tokens of a phrase have been read, with the parentheses open there from the
innermost to the outermost. -/
inductive Progress where
  | operand (opened : List Bracket)
  /-- The first argument of a call is to come, or its closing parenthesis. -/
  | arguments (opened : List Bracket)
  /-- A name was read, and a call may become of it. -/
  | name (opened : List Bracket)
  | done (opened : List Bracket)

namespace Progress

def start (opened : List Bracket) : Token → Option Progress
  | .number _ | .boolean _ => some (done opened)
  | .identifier _ => some (name opened)
  | .openParen => some (operand (.group :: opened))
  | .minus | .plus | .not => some (operand opened)
  | _ => none

def follow : List Bracket → Token → Option Progress
  | _ :: outer, .closeParen => some (done outer)
  | .call :: outer, .comma => some (operand (.call :: outer))
  | opened, t => if t.binaryOp?.isSome then some (operand opened) else none

def step : Progress → Token → Option Progress
  | operand opened, t => start opened t
  | arguments opened, t =>
    if t = .closeParen then some (done opened) else start (.call :: opened) t
  | name opened, t => if t = .openParen then some (arguments opened) else follow opened t
  | done opened, t => follow opened t

def complete : Progress → Bool
  | name [] | done [] => true
  | _ => false

def run (s : Progress) (ts : List Token) : Option Progress := ts.foldlM step s

theorem run_cons (s : Progress) (t : Token) (ts : List Token) :
    s.run (t :: ts) = (s.step t).bind fun s' => s'.run ts := rfl

theorem run_append (s : Progress) (ts us : List Token) :
    s.run (ts ++ us) = (s.run ts).bind fun s' => s'.run us :=
  List.foldlM_append

private def Ends (close : List Token → Prop) (ts : List Token) : Prop :=
  close ts ∨ ∃ (op : BinaryOp) (p : Phrase) (rest : List Token),
    p.Grammatical ∧ ts = op.token :: (p.tokens ++ rest) ∧ close rest

private def Starts (close : List Token → Prop) (ts : List Token) : Prop :=
  ∃ (p : Phrase) (rest : List Token), p.Grammatical ∧ ts = p.tokens ++ rest ∧ close rest

/-- What is asked for behind a phrase in open parentheses: the rest of the arguments of a call, the
closing parenthesis, and what is asked for behind that. -/
private def Behind : List Bracket → List Token → Prop
  | [], ts => ts = []
  | .group :: outer, ts => ∃ rest, ts = .closeParen :: rest ∧ Ends (Behind outer) rest
  | .call :: outer, ts => ∃ (ps : List Phrase) (rest : List Token), (∀ p ∈ ps, p.Grammatical) ∧
    ts = (ps.flatMap fun p => .comma :: p.tokens) ++ .closeParen :: rest ∧
    Ends (Behind outer) rest

private def Arguments (opened : List Bracket) (ts : List Token) : Prop :=
  ∃ (ps : List Phrase) (rest : List Token), (∀ p ∈ ps, p.Grammatical) ∧
    ts = Phrase.separated (ps.map fun p => p.tokens) ++ .closeParen :: rest ∧
    Ends (Behind opened) rest

def Asks : Progress → List Token → Prop
  | operand opened, ts => Starts (Behind opened) ts
  | arguments opened, ts => Arguments opened ts
  | name opened, ts =>
    Ends (Behind opened) ts ∨ ∃ rest, ts = .openParen :: rest ∧ Arguments opened rest
  | done opened, ts => Ends (Behind opened) ts

private theorem Ends.starts {close : List Token → Prop} {ts us : List Token} (h : Ends close ts)
    (a : Phrase) (ha : a.rank ≤ 1) (hga : a.Grammatical) (hus : us = a.tokens ++ ts) :
    Starts close us := by
  subst hus
  rcases h with hclose | ⟨op, p, rest, hp, rfl, hclose⟩
  · exact ⟨a, ts, hga, rfl, hclose⟩
  · refine ⟨.withLeft a op p, rest, Phrase.grammatical_withLeft ha hga hp, ?_, hclose⟩
    rw [Phrase.tokens_withLeft, List.append_assoc, List.cons_append]

private theorem Starts.signed {close : List Token → Prop} {ts : List Token} (s : PrefixSign)
    (h : Starts close ts) : Starts close (s.token :: ts) := by
  obtain ⟨p, rest, hp, rfl, hclose⟩ := h
  refine ⟨.withSign s p, rest, Phrase.grammatical_withSign hp, ?_, hclose⟩
  rw [Phrase.tokens_withSign, List.cons_append]

section Acceptance
variable {opened : List Bracket} {s s' : Progress} {t : Token} {ts : List Token}

private theorem starts_of_start (h : start opened t = some s) (hs : s.Asks ts) :
    Starts (Behind opened) (t :: ts) := by
  cases t with
  | number v =>
    obtain rfl := Option.some.inj h
    refine Ends.starts hs (.number v) (Nat.zero_le 1) ?_ ?_
    · rw [Phrase.Grammatical]; trivial
    · rw [Phrase.tokens]; rfl
  | boolean b =>
    obtain rfl := Option.some.inj h
    refine Ends.starts hs (.boolean b) (Nat.zero_le 1) ?_ ?_
    · rw [Phrase.Grammatical]; trivial
    · rw [Phrase.tokens]; rfl
  | identifier x =>
    obtain rfl := Option.some.inj h
    -- a variable, or a call if its parenthesis is what comes next
    rcases hs with hends | ⟨rest, rfl, ps, rest, hps, rfl, hends⟩
    · refine hends.starts (.var x) (Nat.zero_le 1) ?_ ?_
      · rw [Phrase.Grammatical]; trivial
      · rw [Phrase.tokens]; rfl
    · refine hends.starts (.call x ps) (Nat.zero_le 1) ?_ ?_
      · rw [Phrase.Grammatical]; exact hps
      · rw [Phrase.tokens]; simp
  | openParen =>
    obtain rfl := Option.some.inj h
    obtain ⟨p, rest, hp, rfl, rest, rfl, hends⟩ := hs
    refine hends.starts (.parens p) (Nat.zero_le 1) ?_ ?_
    · rw [Phrase.Grammatical]; exact hp
    · rw [Phrase.tokens]; simp
  | minus =>
    obtain rfl := Option.some.inj h
    exact hs.signed .minus
  | plus =>
    obtain rfl := Option.some.inj h
    exact hs.signed .plus
  | not =>
    obtain rfl := Option.some.inj h
    exact hs.signed .not
  | _ => cases h

private theorem ends_of_follow (h : follow opened t = some s) (hs : s.Asks ts) :
    Ends (Behind opened) (t :: ts) := by
  unfold follow at h
  split at h
  · rename_i b outer
    obtain rfl := Option.some.inj h
    cases b with
    | group => exact .inl ⟨ts, rfl, hs⟩
    | call => exact .inl ⟨[], ts, by simp, rfl, hs⟩
  · obtain rfl := Option.some.inj h
    obtain ⟨p, rest, hp, rfl, ps, rest, hps, rfl, hends⟩ := hs
    refine .inl ⟨p :: ps, rest, List.forall_mem_cons.mpr ⟨hp, hps⟩, ?_, hends⟩
    simp
  · split at h
    · rename_i hop
      obtain ⟨op, hop⟩ := Option.isSome_iff_exists.mp hop
      obtain rfl := Option.some.inj h
      obtain rfl := Token.token_of_binaryOp? hop
      obtain ⟨p, rest, hp, rfl, hclose⟩ := hs
      exact .inr ⟨op, p, rest, hp, rfl, hclose⟩
    · cases h

private theorem asks_of_step (h : s.step t = some s') (hs : s'.Asks ts) : s.Asks (t :: ts) := by
  cases s with
  | operand opened => exact starts_of_start h hs
  | arguments opened =>
    rw [step] at h
    split at h
    · rename_i ht
      obtain rfl := Option.some.inj h
      exact ⟨[], ts, by simp, by rw [ht]; rfl, hs⟩
    -- the first argument has no comma before it, those that are asked for behind it have one
    · obtain ⟨p, rest, hp, hts, ps, rest, hps, rfl, hends⟩ := starts_of_start h hs
      refine ⟨p :: ps, rest, List.forall_mem_cons.mpr ⟨hp, hps⟩, ?_, hends⟩
      rw [hts, List.map_cons, Phrase.separated, List.flatMap_map, List.append_assoc]
  | name opened =>
    rw [step] at h
    split at h
    · rename_i ht
      obtain rfl := Option.some.inj h
      exact .inr ⟨ts, by rw [ht], hs⟩
    · exact .inl (ends_of_follow h hs)
  | done opened => exact ends_of_follow h hs

/-- Accepted tokens are what the machine asks for. -/
theorem asks_of_run (h : s.run ts = some s') (hs : s'.complete = true) : s.Asks ts := by
  induction ts generalizing s with
  | nil =>
    obtain rfl := Option.some.inj h
    unfold complete at hs
    split at hs
    · exact .inl (.inl rfl)
    · exact .inl rfl
    · cases hs
  | cons t ts ih =>
    rw [run_cons] at h
    obtain ⟨s₁, hstep, hrun⟩ := Option.bind_eq_some_iff.mp h
    exact asks_of_step hstep (ih hrun)

end Acceptance

section Phrases
variable {opened : List Bracket} {s : Progress} {t : Token}

private def After (opened : List Bracket) (s : Progress) : Prop := s = name opened ∨ s = done opened

private theorem After.step (h : After opened s) (ht : t ≠ .openParen) :
    s.step t = follow opened t := by
  rcases h with rfl | rfl
  · exact if_neg ht
  · rfl

theorem follow_operator (opened : List Bracket) (op : BinaryOp) :
    follow opened op.token = some (operand opened) := by
  rcases opened with _ | ⟨_ | _, outer⟩ <;> cases op <;> rfl

private theorem After.step_operator (h : After opened s) (op : BinaryOp) :
    s.step op.token = some (operand opened) := by
  rw [h.step, follow_operator]
  cases op <;> simp [BinaryOp.token]

private theorem After.step_closeParen {b : Bracket} (h : After (b :: opened) s) :
    s.step .closeParen = some (done opened) := by
  rw [h.step]
  · rfl
  · simp

private theorem After.step_comma (h : After (.call :: opened) s) :
    s.step .comma = some (operand (.call :: opened)) := by
  rw [h.step]
  · rfl
  · simp

/-- A phrase is read as an operand, whatever is open around it. -/
private def Passes (p : Phrase) : Prop :=
  ∀ opened, ∃ s, After opened s ∧ (operand opened).run p.tokens = some s

private theorem run_moreArguments {ps : List Phrase} (h : ∀ p ∈ ps, Passes p)
    (hs : After (.call :: opened) s) :
    ∃ s', After (.call :: opened) s' ∧
      s.run (ps.flatMap fun p => .comma :: p.tokens) = some s' := by
  induction ps generalizing s with
  | nil => exact ⟨s, hs, rfl⟩
  | cons p ps ih =>
    obtain ⟨hp, hps⟩ := List.forall_mem_cons.mp h
    obtain ⟨s₁, hs₁, hrun₁⟩ := hp (.call :: opened)
    obtain ⟨s₂, hs₂, hrun₂⟩ := ih hps hs₁
    refine ⟨s₂, hs₂, ?_⟩
    rw [List.flatMap_cons, List.cons_append, run_cons, hs.step_comma, Option.bind_some, run_append,
      hrun₁, Option.bind_some, hrun₂]

private theorem run_arguments {ps : List Phrase} (h : ∀ p ∈ ps, Passes p) :
    (arguments opened).run (Phrase.separated (ps.map fun p => p.tokens) ++ [.closeParen]) =
      some (done opened) := by
  cases ps with
  | nil => rfl
  | cons p ps =>
    obtain ⟨hp, hps⟩ := List.forall_mem_cons.mp h
    obtain ⟨s₁, hs₁, hrun₁⟩ := hp (.call :: opened)
    obtain ⟨s₂, hs₂, hrun₂⟩ := run_moreArguments hps hs₁
    -- the first token of an argument is no closing parenthesis, so it is read as an operand's
    have hfirst : (arguments opened).run p.tokens = some s₁ := by
      obtain ⟨t, ts, htokens, ht, -⟩ := p.tokens_eq_cons
      have hstep : (arguments opened).step t = (operand (.call :: opened)).step t := if_neg ht
      rw [← hrun₁, htokens, run_cons, run_cons, hstep]
    rw [List.map_cons, Phrase.separated, List.flatMap_map, run_append, run_append, hfirst,
      Option.bind_some, hrun₂, Option.bind_some, run_cons, hs₂.step_closeParen]
    rfl

private theorem passes (p : Phrase) : Passes p := by
  -- what is open around the phrase varies, since its own parentheses are open around its parts
  induction p with
  | number v => exact fun opened => ⟨done opened, .inr rfl, by rw [Phrase.tokens]; rfl⟩
  | boolean b => exact fun opened => ⟨done opened, .inr rfl, by rw [Phrase.tokens]; rfl⟩
  | var x => exact fun opened => ⟨name opened, .inl rfl, by rw [Phrase.tokens]; rfl⟩
  | parens p ih =>
    intro opened
    obtain ⟨s, hs, hrun⟩ := ih (.group :: opened)
    have hopen : (operand opened).step .openParen = some (operand (.group :: opened)) := rfl
    refine ⟨done opened, .inr rfl, ?_⟩
    rw [Phrase.tokens, run_cons, hopen, Option.bind_some, run_append, hrun, Option.bind_some,
      run_cons, hs.step_closeParen]
    rfl
  | call x ps ih =>
    intro opened
    refine ⟨done opened, .inr rfl, ?_⟩
    rw [Phrase.tokens]
    exact run_arguments ih
  | signed s p ih =>
    intro opened
    obtain ⟨s', hs', hrun⟩ := ih opened
    have hsign : (operand opened).step s.token = some (operand opened) := by cases s <;> rfl
    exact ⟨s', hs', by rw [Phrase.tokens, run_cons, hsign, Option.bind_some, hrun]⟩
  | binary op l r ihl ihr =>
    intro opened
    obtain ⟨s₁, hs₁, hrun₁⟩ := ihl opened
    obtain ⟨s₂, hs₂, hrun₂⟩ := ihr opened
    refine ⟨s₂, hs₂, ?_⟩
    rw [Phrase.tokens, run_append, hrun₁, Option.bind_some, run_cons, hs₁.step_operator,
      Option.bind_some, hrun₂]

private theorem After.complete_iff (h : After opened s) : s.complete = true ↔ opened = [] := by
  rcases h with rfl | rfl <;> cases opened <;> simp [complete]

private theorem After.run_closing (h : After opened s) :
    ∃ s', s.run (opened.map fun _ => .closeParen) = some s' ∧ s'.complete = true := by
  induction opened generalizing s with
  | nil => exact ⟨s, rfl, h.complete_iff.mpr rfl⟩
  | cons b outer ih =>
    obtain ⟨s', hrun, hcomplete⟩ := ih (.inr rfl)
    exact ⟨s', by rw [List.map_cons, run_cons, h.step_closeParen, Option.bind_some, hrun],
      hcomplete⟩

/-- From everywhere the machine can be brought to accept. -/
theorem exists_completion (s : Progress) :
    ∃ more s', s.run more = some s' ∧ s'.complete = true := by
  cases s with
  | operand opened =>
    obtain ⟨s', hrun, hcomplete⟩ := After.run_closing (.inr rfl : After opened (done opened))
    exact ⟨.number 0 :: opened.map fun _ => .closeParen, s', hrun, hcomplete⟩
  | arguments opened =>
    obtain ⟨s', hrun, hcomplete⟩ := After.run_closing (.inr rfl : After opened (done opened))
    exact ⟨.closeParen :: opened.map fun _ => .closeParen, s', hrun, hcomplete⟩
  | name opened => exact ⟨_, After.run_closing (.inl rfl)⟩
  | done opened => exact ⟨_, After.run_closing (.inr rfl)⟩

end Phrases
end Progress

namespace Phrase

def Sentence (ts : List Token) : Prop := ∃ p : Phrase, p.Grammatical ∧ p.tokens = ts

/-- A phrase begins with these tokens. -/
def Viable (ts : List Token) : Prop := ∃ more, Sentence (ts ++ more)

/-- The machine accepts the tokens of phrases. -/
theorem sentence_iff {ts : List Token} :
    Sentence ts ↔ ∃ s, (Progress.operand []).run ts = some s ∧ s.complete = true := by
  constructor
  · rintro ⟨p, -, rfl⟩
    obtain ⟨s, hs, hrun⟩ := Progress.passes p []
    exact ⟨s, hrun, hs.complete_iff.mpr rfl⟩
  · rintro ⟨s, hrun, hs⟩
    obtain ⟨p, rest, hp, rfl, rfl⟩ := Progress.asks_of_run hrun hs
    exact ⟨p, hp, (List.append_nil _).symm⟩

/-- The machine gets through what phrases begin with. -/
theorem viable_iff {ts : List Token} :
    Viable ts ↔ ∃ s, (Progress.operand []).run ts = some s := by
  constructor
  · rintro ⟨more, hmore⟩
    obtain ⟨s, hrun, -⟩ := sentence_iff.mp hmore
    rw [Progress.run_append] at hrun
    obtain ⟨s', hrun', -⟩ := Option.bind_eq_some_iff.mp hrun
    exact ⟨s', hrun'⟩
  · rintro ⟨s, hrun⟩
    obtain ⟨more, s', hmore, hs'⟩ := s.exists_completion
    refine ⟨more, sentence_iff.mpr ⟨s', ?_, hs'⟩⟩
    rw [Progress.run_append, hrun, Option.bind_some, hmore]

end Phrase
end PriceFormula
