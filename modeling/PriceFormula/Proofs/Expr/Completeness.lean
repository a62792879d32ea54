import PriceFormula.Proofs.Expr.Soundness

namespace PriceFormula

namespace Phrase

/-- The first token of a phrase starts an operand, so it closes nothing; that of a phrase without
binary operator and sign outside parentheses is no sign either. -/
theorem tokens_eq_cons (p : Phrase) : ∃ t ts, p.tokens = t :: ts ∧ t ≠ .closeParen ∧
    (p.rank = 0 → ∀ s : PrefixSign, t ≠ s.token) := by
  induction p with
  | number v =>
    refine ⟨.number v, [], by rw [tokens], by simp, fun _ s => ?_⟩
    cases s <;> simp [PrefixSign.token]
  | boolean b =>
    refine ⟨.boolean b, [], by rw [tokens], by simp, fun _ s => ?_⟩
    cases s <;> simp [PrefixSign.token]
  | var x =>
    refine ⟨.identifier x, [], by rw [tokens], by simp, fun _ s => ?_⟩
    cases s <;> simp [PrefixSign.token]
  | parens p _ =>
    refine ⟨.openParen, _, by rw [tokens], by simp, fun _ s => ?_⟩
    cases s <;> simp [PrefixSign.token]
  | call x ps _ =>
    refine ⟨.identifier x, _, by rw [tokens], by simp, fun _ s => ?_⟩
    cases s <;> simp [PrefixSign.token]
  | signed s p _ =>
    refine ⟨s.token, _, by rw [tokens], ?_, fun h => absurd h (by simp [rank])⟩
    cases s <;> simp [PrefixSign.token]
  | binary op l r ihl _ =>
    obtain ⟨t, ts, hl, ht, -⟩ := ihl
    exact ⟨t, ts ++ op.token :: r.tokens, by rw [tokens, hl, List.cons_append], ht,
      fun h => absurd h (by simp [rank])⟩

end Phrase

namespace Parser
variable {ending : Ending} {inner : Nested Parser} {levels : Nat}

private theorem next_cons {l : Located} {rest : List Located} {n : Nat} (h : Settled ending rest) :
    next ending ⟨l :: rest, n⟩ = .ok ⟨rest, n⟩ :=
  settle_eq_ok.mpr ⟨rfl, h⟩

private theorem require_cons {l : Located} {rest : List Located} {n : Nat}
    (h : Settled ending rest) :
    require ending l.token ⟨l :: rest, n⟩ = .ok ⟨rest, n⟩ :=
  (if_pos rfl).trans (next_cons h)

private theorem countOperator_of_lt {ahead : List Located} {n : Nat} (h : n < operatorLimit) :
    countOperator ending ⟨ahead, n⟩ = .ok ⟨ahead, n + 1⟩ :=
  if_pos h

private def Follows (rank : Nat) (rest : List Located) : Prop :=
  ∀ l ∈ rest.head?, l.token ≠ .openParen ∧ ∀ op, l.token.binaryOp? = some op → rank < op.level + 2

private theorem Follows.mono {r r' : Nat} {rest : List Located} (h : Follows r' rest)
    (hr : r ≤ r') :
    Follows r rest :=
  fun l hl => ⟨(h l hl).1, fun op hop => Nat.lt_of_le_of_lt hr ((h l hl).2 op hop)⟩

private theorem Follows.of_token {rank : Nat} {l : Located} {rest : List Located}
    (ho : l.token ≠ .openParen) (hb : l.token.binaryOp? = none) : Follows rank (l :: rest) := by
  rintro _ ⟨⟩
  exact ⟨ho, fun op hop => by rw [hb] at hop; nomatch hop⟩

private theorem Follows.of_operator {rank : Nat} {l : Located} {rest : List Located} {op : BinaryOp}
    (ht : l.token = op.token) (hr : rank < op.level + 2) : Follows rank (l :: rest) := by
  rintro _ ⟨⟩
  refine ⟨by rw [ht]; cases op <;> nofun, fun op' hop => ?_⟩
  rw [ht, BinaryOp.binaryOp?_token] at hop
  obtain rfl := Option.some.inj hop
  exact hr

private theorem Follows.operator?_eq_none {level n : Nat} {rest : List Located}
    (h : Follows (level + 2) rest) : Cursor.operator? level ⟨rest, n⟩ = none := by
  cases ho : Cursor.operator? level ⟨rest, n⟩ with
  | none => rfl
  | some op =>
    obtain ⟨hlevel, t, ht, hop⟩ := operator?_eq_some ho
    obtain ⟨l, rest', ha, rfl⟩ := token?_eq_some.mp ht
    have := (h l (by rw [show rest = l :: rest' from ha]; rfl)).2 op hop
    omega

private theorem operator?_cons {l : Located} {rest : List Located} {n : Nat} {op : BinaryOp}
    (h : l.token = op.token) : Cursor.operator? op.level ⟨l :: rest, n⟩ = some op := by
  simp [Cursor.operator?, Cursor.token?, h, BinaryOp.binaryOp?_token, Option.filter]

/-- A parser reads every phrase that fits, with any tokens behind it that cannot belong to it. -/
def Reads (ending : Ending) (rank levels : Nat) (parser : Parser Expr) : Prop :=
  ∀ (p : Phrase) (taken rest : List Located) (n : Nat), p.Fits rank levels →
    taken.map Located.token = p.tokens → n + p.operators ≤ operatorLimit → Settled ending rest →
    Follows rank rest → parser ⟨taken ++ rest, n⟩ = .ok (p.tree, ⟨rest, n + p.operators⟩)

def ReadsAll (levels : Nat) (parser : Parser (List Expr)) : Prop :=
  ∀ (ps : List Phrase) (taken rest : List Located) (n : Nat), 0 < levels →
    (∀ p ∈ ps, p.Fits (loosest + 2) levels) →
    taken.map Located.token = Phrase.separated (ps.map fun p => p.tokens) →
    n + (ps.map fun p => p.operators).foldr (· + ·) 0 ≤ operatorLimit →
    (∃ l rest', rest = l :: rest' ∧ l.token = .closeParen) →
    parser ⟨taken ++ rest, n⟩ =
      .ok (ps.map fun p => p.tree, ⟨rest, n + (ps.map fun p => p.operators).foldr (· + ·) 0⟩)

structure Nested.Complete (ending : Ending) (levels : Nat) (inner : Nested Parser) : Prop where
  expression : Reads ending (loosest + 2) levels inner.expression
  arguments : ReadsAll levels inner.arguments
  power : Reads ending 2 levels inner.power
  signed : Reads ending 1 levels inner.signed

theorem lt_of_foldr_max_lt {ns : List Nat} {n : Nat} (h : ns.foldr max 0 < n) :
    0 < n ∧ ∀ m ∈ ns, m < n := by
  induction ns with
  | nil => exact ⟨h, nofun⟩
  | cons m ns ih =>
    simp only [List.foldr_cons, Nat.max_lt] at h
    obtain ⟨hn, hns⟩ := ih h.2
    exact ⟨hn, List.forall_mem_cons.mpr ⟨h.1, hns⟩⟩

private theorem call_reads (h : inner.Complete ending levels) {name : String} {ps : List Phrase}
    {start n : Nat} {l₁ l₂ : Located} {taken rest : List Located}
    (hf : (Phrase.call name ps).Fits 0 (levels + 1)) (hl₂ : l₂.token = .closeParen)
    (ht : taken.map Located.token = Phrase.separated (ps.map fun p => p.tokens))
    (hn : n + (Phrase.call name ps).operators ≤ operatorLimit) (hs : Settled ending rest) :
    call ending inner name start ⟨l₁ :: (taken ++ l₂ :: rest), n⟩ =
      .ok ((Phrase.call name ps).tree, ⟨rest, n + (Phrase.call name ps).operators⟩) := by
  have hcalls := hf.callsFit
  have hnest := hf.nesting_lt
  have hgram := hf.grammatical
  rw [Phrase.CallsFit] at hcalls
  rw [Phrase.nesting, Nat.add_lt_add_iff_right] at hnest
  rw [Phrase.Grammatical] at hgram
  rw [Phrase.operators] at hn ⊢
  obtain ⟨⟨f, hname, htakes⟩, hcalls⟩ := hcalls
  obtain ⟨hlevels, hnest⟩ := lt_of_foldr_max_lt hnest
  have hps : ∀ p ∈ ps, p.Fits (loosest + 2) levels := fun p hp =>
    ⟨p.rank_le, hgram p hp, hcalls p hp, hnest _ (List.mem_map_of_mem hp)⟩
  have hargs := h.arguments ps taken (l₂ :: rest) n hlevels hps ht hn ⟨l₂, rest, rfl, hl₂⟩
  have hcount : checkCount f (ps.map fun p => p.tree).length = .ok () :=
    checkCount_eq_ok.mpr (by rwa [List.length_map])
  have hrequire := require_cons (l := l₂) (n := n + (ps.map fun p => p.operators).foldr (· + ·) 0) hs
  have hargsSettled : Settled ending (taken ++ l₂ :: rest) := .append .cons
  rw [hl₂] at hrequire
  unfold call
  rw [Function.find?_eq_some.mpr hname]
  simp only [bind_apply, move_apply, check_apply, deeper_eq, pure_apply, next_cons hargsSettled,
    ok_bind, hargs, hrequire, hcount, Phrase.tree, hname]

private theorem primary_reads (h : inner.Complete ending levels) :
    Reads ending 0 (levels + 1) (primary ending inner) := by
  intro p taken rest n hf ht hn hs hr
  cases p with
  | number v =>
    rw [Phrase.tokens, List.map_eq_singleton_iff] at ht
    obtain ⟨⟨_, start, stop⟩, rfl, rfl⟩ := ht
    simp [primary, next_cons hs, Phrase.tree, Phrase.operators]
  | boolean b =>
    rw [Phrase.tokens, List.map_eq_singleton_iff] at ht
    obtain ⟨⟨_, start, stop⟩, rfl, rfl⟩ := ht
    simp [primary, next_cons hs, Phrase.tree, Phrase.operators]
  | var x =>
    rw [Phrase.tokens, List.map_eq_singleton_iff] at ht
    obtain ⟨⟨_, start, stop⟩, rfl, rfl⟩ := ht
    have hopen : Cursor.token? ⟨rest, n⟩ ≠ some .openParen := by
      intro ho
      obtain ⟨l, rest', rfl, hl⟩ := token?_eq_some.mp ho
      exact (hr l rfl).1 hl
    simp [primary, next_cons hs, hopen, Phrase.tree, Phrase.operators]
  | parens p =>
    rw [Phrase.tokens, List.map_eq_cons_iff] at ht
    obtain ⟨⟨_, start, stop⟩, taken', rfl, rfl, ht⟩ := ht
    obtain ⟨taken, close, rfl, htp, hclose⟩ := List.map_eq_append_iff.mp ht
    obtain ⟨l, rfl, hl⟩ := List.map_eq_singleton_iff.mp hclose
    have hgram := hf.grammatical
    have hcalls := hf.callsFit
    have hnest := hf.nesting_lt
    rw [Phrase.Grammatical] at hgram
    rw [Phrase.CallsFit] at hcalls
    rw [Phrase.nesting, Nat.add_lt_add_iff_right] at hnest
    rw [Phrase.operators] at hn ⊢
    have hp := h.expression p taken (l :: rest) n ⟨p.rank_le, hgram, hcalls, hnest⟩ htp hn .cons
      (.of_token (by simp [hl]) (by rw [hl]; rfl))
    have hrequire := require_cons (l := l) (n := n + p.operators) hs
    rw [hl] at hrequire
    have hinner : Settled ending (taken ++ l :: rest) := .append .cons
    simp [primary, next_cons hinner, hp, hrequire, Phrase.tree]
  | call x ps =>
    rw [Phrase.tokens, List.map_eq_cons_iff] at ht
    obtain ⟨⟨_, start, stop⟩, taken', rfl, rfl, ht⟩ := ht
    obtain ⟨l₁, taken, rfl, hl₁, ht⟩ := List.map_eq_cons_iff.mp ht
    obtain ⟨taken, close, rfl, htps, hclose⟩ := List.map_eq_append_iff.mp ht
    obtain ⟨l₂, rfl, hl₂⟩ := List.map_eq_singleton_iff.mp hclose
    have hcall : call ending inner x start ⟨l₁ :: (taken ++ l₂ :: rest), n⟩ = _ :=
      call_reads h hf hl₂ htps hn hs
    have hopen : Cursor.token? ⟨l₁ :: (taken ++ l₂ :: rest), n⟩ = some .openParen :=
      congrArg some hl₁
    have hinner : Settled ending (l₁ :: (taken ++ l₂ :: rest)) := .cons
    simp [primary, next_cons hinner, hopen, hcall]
  | signed s p => exact absurd hf.rank_le (by simp [Phrase.rank])
  | binary op l r => exact absurd hf.rank_le (by simp [Phrase.rank])

private theorem signed_reads (h : inner.Complete ending levels) :
    Reads ending 1 (levels + 1) (signed ending inner) := by
  intro p taken rest n hf ht hn hs hr
  by_cases hp : p.rank = 0
  · obtain ⟨t, ts, hts, -, hsign⟩ := p.tokens_eq_cons
    rw [hts] at ht
    obtain ⟨l, taken', rfl, hl, -⟩ := List.map_eq_cons_iff.mp ht
    have htoken : Cursor.token? ⟨l :: taken' ++ rest, n⟩ = some t := congrArg some hl
    have hread := primary_reads h p (l :: taken') rest n { hf with rank_le := Nat.le_of_eq hp }
      (by rw [ht, hts]) hn hs (hr.mono (Nat.zero_le 1))
    unfold signed
    rw [cursor_bind, htoken]
    cases t with
    | minus => exact absurd rfl (hsign hp .minus)
    | not => exact absurd rfl (hsign hp .not)
    | plus => exact absurd rfl (hsign hp .plus)
    | _ => exact hread
  · cases p with
    | signed s p =>
      rw [Phrase.tokens, List.map_eq_cons_iff] at ht
      obtain ⟨l, taken, rfl, hl, ht⟩ := ht
      have hgram := hf.grammatical
      have hcalls := hf.callsFit
      have hnest := hf.nesting_lt
      rw [Phrase.Grammatical] at hgram
      rw [Phrase.CallsFit] at hcalls
      rw [Phrase.nesting, Nat.add_lt_add_iff_right] at hnest
      rw [Phrase.operators] at hn ⊢
      have hread := h.signed p taken rest n ⟨hgram.1, hgram.2, hcalls, hnest⟩ ht hn hs hr
      have htoken : Cursor.token? ⟨l :: (taken ++ rest), n⟩ = some s.token := congrArg some hl
      have hrest : Settled ending (taken ++ rest) := hs.append
      have hnext := next_cons (l := l) (n := n) hrest
      cases s <;>
        simp only [PrefixSign.token] at htoken <;>
        simp [signed, htoken, hnext, hread, Phrase.tree, PrefixSign.apply]
    | binary op l r => exact absurd hf.rank_le (by simp [Phrase.rank])
    | number | boolean | var | parens | call => exact absurd rfl hp

private theorem operator_reads {op : BinaryOp} {l : Located} {rest : List Located} {n : Nat}
    (hl : l.token = op.token) (hn : n < operatorLimit) (hs : Settled ending rest) :
    Cursor.operator? op.level ⟨l :: rest, n⟩ = some op ∧
      countOperator ending ⟨l :: rest, n⟩ = .ok ⟨l :: rest, n + 1⟩ ∧
      next ending ⟨l :: rest, n + 1⟩ = .ok ⟨rest, n + 1⟩ :=
  ⟨operator?_cons hl, countOperator_of_lt hn, next_cons hs⟩

private theorem power_reads (h : inner.Complete ending levels) :
    Reads ending 2 (levels + 1) (power ending inner) := by
  intro p taken rest n hf ht hn hs hr
  by_cases hp : p.rank ≤ 1
  · have hread := signed_reads h p taken rest n { hf with rank_le := hp } ht hn hs
      (hr.mono (by decide))
    simp [power, hread, hr.operator?_eq_none]
  · cases p with
    | binary op l r =>
      have hlevel : op.level = 0 := by simpa [Phrase.rank] using hf.rank_le
      obtain rfl := op.level_eq_zero_iff.mp hlevel
      rw [Phrase.tokens] at ht
      obtain ⟨takenl, taken', rfl, htl, ht⟩ := List.map_eq_append_iff.mp ht
      obtain ⟨o, takenr, rfl, ho, htr⟩ := List.map_eq_cons_iff.mp ht
      have hgram := hf.grammatical
      have hcalls := hf.callsFit
      have hnest := hf.nesting_lt
      rw [Phrase.Grammatical, if_pos rfl] at hgram
      rw [Phrase.CallsFit] at hcalls
      rw [Phrase.nesting, if_pos rfl, Nat.max_lt, Nat.add_lt_add_iff_right] at hnest
      rw [Phrase.operators] at hn
      have hlevelRank : 1 < BinaryOp.level .power + 2 := by decide
      have hreadl := signed_reads h l takenl (o :: (takenr ++ rest)) n
        ⟨hgram.1.1, hgram.2.1, hcalls.1, hnest.1⟩ htl (by omega) .cons
        (.of_operator ho hlevelRank)
      have hreadr := h.power r takenr rest (n + l.operators + 1)
        ⟨hgram.1.2, hgram.2.2, hcalls.2, hnest.2⟩ htr (by omega) hs hr
      have hrest : Settled ending (takenr ++ rest) := hs.append
      obtain ⟨hop, hcount, hnext⟩ := operator_reads (n := n + l.operators) ho (by omega) hrest
      simp only [hlevel] at hop
      simp only [List.append_assoc, List.cons_append]
      simp [power, hreadl, hop, hcount, hnext, hreadr, Phrase.tree, Phrase.operators]
      omega
    | number | boolean | var | parens | call | signed => exact absurd (by simp [Phrase.rank]) hp

private theorem chain_reads_operand {level : Nat} {operand : Parser Expr}
    (h : Reads ending (level + 2) levels operand) {p : Phrase} {taken rest : List Located} {n : Nat}
    (hf : p.Fits (level + 2) levels) (ht : taken.map Located.token = p.tokens)
    (hn : n + p.operators ≤ operatorLimit) (hs : Settled ending rest)
    (hr : Follows (level + 2) rest) :
    ∃ turns, rest.length ≤ turns ∧ chain ending (level + 1) operand ⟨taken ++ rest, n⟩ =
      chainFrom ending (level + 1) operand turns p.tree ⟨rest, n + p.operators⟩ :=
  ⟨rest.length, Nat.le_refl _, by simp [chain, h p taken rest n hf ht hn hs hr]⟩

/-- A chain reads a phrase of its level, but does not yet look behind it: an operator of the chain
itself may follow. The induction is on the phrase, whose left operand is a chain as well. -/
private theorem chain_reads_left {level : Nat} {operand : Parser Expr}
    (h : Reads ending (level + 2) levels operand) (p : Phrase) {taken rest : List Located} {n : Nat}
    (hf : p.Fits (level + 3) levels) (ht : taken.map Located.token = p.tokens)
    (hn : n + p.operators ≤ operatorLimit) (hs : Settled ending rest)
    (hr : Follows (level + 2) rest) :
    ∃ turns, rest.length ≤ turns ∧ chain ending (level + 1) operand ⟨taken ++ rest, n⟩ =
      chainFrom ending (level + 1) operand turns p.tree ⟨rest, n + p.operators⟩ := by
  induction p generalizing taken rest n with
  | binary op l r ihl _ =>
    by_cases hp : op.level + 2 ≤ level + 2
    · exact chain_reads_operand h { hf with rank_le := hp } ht hn hs hr
    · have hlevel : op.level = level + 1 := by
        have : op.level + 2 ≤ level + 3 := hf.rank_le
        omega
      have hne : op ≠ .power := fun he => by simp [he, BinaryOp.level] at hlevel
      rw [Phrase.tokens] at ht
      obtain ⟨takenl, taken', rfl, htl, ht'⟩ := List.map_eq_append_iff.mp ht
      obtain ⟨o, takenr, rfl, ho, htr⟩ := List.map_eq_cons_iff.mp ht'
      have hgram := hf.grammatical
      have hcalls := hf.callsFit
      have hnest := hf.nesting_lt
      rw [Phrase.Grammatical, if_neg hne, hlevel] at hgram
      rw [Phrase.CallsFit] at hcalls
      rw [Phrase.nesting, if_neg hne, Nat.max_lt] at hnest
      rw [Phrase.operators] at hn ⊢
      -- the left operand is again a chain of this level, which leaves one more turn for the operator
      have hfl : l.Fits (level + 3) levels := ⟨hgram.1.1, hgram.2.1, hcalls.1, hnest.1⟩
      have hfollow : Follows (level + 2) (o :: (takenr ++ rest)) :=
        .of_operator ho (by omega)
      have hbehind : Settled ending (o :: (takenr ++ rest)) := .cons
      have hnl : n + l.operators ≤ operatorLimit := by omega
      obtain ⟨turns, hturns, hchain⟩ := ihl hfl htl hnl hbehind hfollow
      obtain ⟨turns, rfl⟩ := Nat.exists_eq_add_of_le' (Nat.lt_of_lt_of_le (Nat.succ_pos _) hturns)
      have hrest : Settled ending (takenr ++ rest) := hs.append
      obtain ⟨hop, hcount, hnext⟩ := operator_reads (n := n + l.operators) ho (by omega) hrest
      have hreadr := h r takenr rest (n + l.operators + 1)
        ⟨hgram.1.2, hgram.2.2, hcalls.2, hnest.2⟩ htr (by omega) hs hr
      rw [hlevel] at hop
      refine ⟨turns, ?_, ?_⟩
      · simp only [List.length_cons, List.length_append] at hturns
        omega
      · rw [List.append_assoc, List.cons_append, hchain, chainFrom, cursor_bind, hop]
        simp only [bind_apply, move_apply, hcount, hnext, hreadr, ok_bind, Phrase.tree]
        have hsum : n + l.operators + 1 + r.operators = n + (l.operators + r.operators + 1) := by
          omega
        rw [hsum]
  | number | boolean | var | parens | call | signed =>
    exact chain_reads_operand h { hf with rank_le := by simp [Phrase.rank] } ht hn hs hr

private theorem atLevel_reads (h : inner.Complete ending levels) (level : Nat) :
    Reads ending (level + 2) (levels + 1) (atLevel ending inner level) := by
  induction level with
  | zero => exact power_reads h
  | succ level ih =>
    intro p taken rest n hf ht hn hs hr
    obtain ⟨turns, -, hchain⟩ :=
      chain_reads_left ih p hf ht hn hs (hr.mono (Nat.le_succ _))
    rw [atLevel, hchain]
    cases turns with
    | zero => rfl
    | succ turns =>
      rw [chainFrom, cursor_bind, hr.operator?_eq_none]
      rfl

private theorem follows_argument {ps : List Phrase} {taken rest : List Located} {rank : Nat}
    (ht : taken.map Located.token = ps.flatMap fun p => .comma :: p.tokens)
    (hrest : ∃ l rest', rest = l :: rest' ∧ l.token = .closeParen) :
    Follows rank (taken ++ rest) := by
  cases ps with
  | nil =>
    obtain rfl := List.map_eq_nil_iff.mp ht
    obtain ⟨l, rest, rfl, hl⟩ := hrest
    exact .of_token (by rw [hl]; nofun) (by rw [hl]; rfl)
  | cons p ps =>
    obtain ⟨k, taken, rfl, hk, -⟩ := List.map_eq_cons_iff.mp ht
    exact .of_token (by rw [hk]; nofun) (by rw [hk]; rfl)

private theorem settled_arguments {taken rest : List Located}
    (hrest : ∃ l rest', rest = l :: rest' ∧ l.token = .closeParen) :
    Settled ending (taken ++ rest) := by
  obtain ⟨l, rest, rfl, -⟩ := hrest
  exact .append .cons

private theorem moreArguments_reads {argument : Parser Expr}
    (h : Reads ending (loosest + 2) levels argument) {ps : List Phrase} {taken rest : List Located}
    {n turns : Nat} (hf : ∀ p ∈ ps, p.Fits (loosest + 2) levels)
    (ht : taken.map Located.token = ps.flatMap fun p => .comma :: p.tokens)
    (hn : n + (ps.map fun p => p.operators).foldr (· + ·) 0 ≤ operatorLimit)
    (hrest : ∃ l rest', rest = l :: rest' ∧ l.token = .closeParen) (hturns : taken.length ≤ turns) :
    moreArguments ending argument turns ⟨taken ++ rest, n⟩ =
      .ok (ps.map fun p => p.tree, ⟨rest, n + (ps.map fun p => p.operators).foldr (· + ·) 0⟩) := by
  induction ps generalizing taken n turns with
  | nil =>
    obtain rfl := List.map_eq_nil_iff.mp ht
    obtain ⟨l, rest, rfl, hl⟩ := hrest
    have hcomma : Cursor.token? ⟨l :: rest, n⟩ ≠ some .comma := by
      simp [Cursor.token?, hl]
    cases turns with
    | zero => rfl
    | succ turns => simp [moreArguments, hcomma]
  | cons p ps ih =>
    rw [List.flatMap_cons, List.cons_append, List.map_eq_cons_iff] at ht
    obtain ⟨comma, taken', rfl, hcomma, ht⟩ := ht
    obtain ⟨takenp, takens, rfl, htp, hts⟩ := List.map_eq_append_iff.mp ht
    simp only [List.map_cons, List.foldr_cons] at hn
    simp only [List.length_cons, List.length_append] at hturns
    obtain ⟨turns, rfl⟩ := Nat.exists_eq_add_of_le' (Nat.lt_of_lt_of_le (Nat.succ_pos _) hturns)
    have hreadp := h p takenp (takens ++ rest) n (hf p List.mem_cons_self) htp (by omega)
      (settled_arguments hrest) (follows_argument hts hrest)
    have hlength : takens.length ≤ turns := by omega
    have hreads := ih (n := n + p.operators) (fun q hq => hf q (List.mem_cons_of_mem p hq)) hts
      (by omega) hlength
    have htoken : Cursor.token? ⟨comma :: (takenp ++ (takens ++ rest)), n⟩ = some .comma :=
      congrArg some hcomma
    have hnext : Settled ending (takenp ++ (takens ++ rest)) := .append (settled_arguments hrest)
    simp [moreArguments, htoken, next_cons hnext, hreadp, hreads, Nat.add_assoc]

private theorem argumentList_reads {argument : Parser Expr}
    (h : Reads ending (loosest + 2) levels argument) :
    ReadsAll levels (argumentList ending argument) := by
  intro ps taken rest n _ hf ht hn hrest
  cases ps with
  | nil =>
    obtain rfl := List.map_eq_nil_iff.mp ht
    obtain ⟨l, rest, rfl, hl⟩ := hrest
    simp [argumentList, Cursor.token?, hl]
  | cons p ps =>
    have ht' : taken.map Located.token = p.tokens ++ ps.flatMap fun p => .comma :: p.tokens := by
      rw [ht, List.map_cons, Phrase.separated, List.flatMap_map]
    obtain ⟨takenp, takens, rfl, htp, hts⟩ := List.map_eq_append_iff.mp ht'
    simp only [List.map_cons, List.foldr_cons] at hn
    have hreadp := h p takenp (takens ++ rest) n (hf p List.mem_cons_self) htp (by omega)
      (settled_arguments hrest) (follows_argument hts hrest)
    have hreads := moreArguments_reads h (n := n + p.operators)
      (fun q hq => hf q (List.mem_cons_of_mem p hq)) hts (by omega) hrest
      (Nat.le_trans (Nat.le_add_right _ rest.length) (Nat.le_of_eq List.length_append.symm))
    obtain ⟨t, ts, htokens, hclose, -⟩ := p.tokens_eq_cons
    rw [htokens] at htp
    obtain ⟨l, takenp, rfl, hl, -⟩ := List.map_eq_cons_iff.mp htp
    have hopen : Cursor.token? ⟨l :: (takenp ++ (takens ++ rest)), n⟩ ≠ some .closeParen := by
      simpa [Cursor.token?, hl] using hclose
    rw [List.cons_append] at hreadp
    rw [List.length_append] at hreads
    simp [argumentList, hopen, hreadp, hreads, Nat.add_assoc]

/-- The parsers for every number of levels read all phrases that keep to it. -/
theorem downFrom_complete (ending : Ending) (levels : Nat) :
    (downFrom ending levels).Complete ending levels := by
  induction levels with
  | zero =>
    refine ⟨?_, ?_, ?_, ?_⟩
    · exact fun p _ _ _ hf => absurd hf.nesting_lt (Nat.not_lt_zero _)
    · exact fun _ _ _ _ h => absurd h (Nat.lt_irrefl 0)
    · exact fun p _ _ _ hf => absurd hf.nesting_lt (Nat.not_lt_zero _)
    · exact fun p _ _ _ hf => absurd hf.nesting_lt (Nat.not_lt_zero _)
  | succ levels ih =>
    exact ⟨atLevel_reads ih loosest, argumentList_reads (atLevel_reads ih loosest),
      power_reads ih, signed_reads ih⟩

end Parser
end PriceFormula
