import PriceFormula.Proofs.Expr.Cursor
import PriceFormula.Proofs.Expr.Phrase

namespace PriceFormula

/-- A phrase of the grammar with fitting calls, bound as tightly as a place asks for and nested
less deep than it allows. -/
structure Phrase.Fits (rank levels : Nat) (p : Phrase) : Prop where
  rank_le : p.rank ≤ rank
  grammatical : p.Grammatical
  callsFit : p.CallsFit
  nesting_lt : p.nesting < levels

private theorem Phrase.Fits.mono {r r' levels : Nat} {p : Phrase} (h : p.Fits r levels)
    (hr : r ≤ r') :
    p.Fits r' levels :=
  { h with rank_le := Nat.le_trans h.rank_le hr }

/-- A call finds exactly the function whose name it has in lower case. -/
theorem Function.find?_eq_some {name : String} {f : Function} :
    Function.find? name = some f ↔ f.name = name.map Char.toLower := by
  unfold Function.find?
  constructor
  · intro h
    simpa using List.find?_some h
  · intro h
    rw [← h]
    cases f <;> rfl

theorem Parser.checkCount_eq_ok {f : Function} {count : Nat} :
    checkCount f count = .ok () ↔ f.Takes count := by
  unfold checkCount Function.Takes
  cases hm : f.mostCount with
  | none =>
    by_cases hl : count < f.leastCount
    · rw [if_pos hl]
      exact ⟨nofun, fun h => absurd h.1 (Nat.not_le_of_lt hl)⟩
    · rw [if_neg hl]
      exact ⟨fun _ => ⟨Nat.le_of_not_lt hl, nofun⟩, fun _ => rfl⟩
  | some most =>
    by_cases hl : count < f.leastCount
    · rw [if_pos hl]
      exact ⟨nofun, fun h => absurd h.1 (Nat.not_le_of_lt hl)⟩
    · rw [if_neg hl]
      by_cases hg : most < count
      · simp only [if_pos hg]
        exact ⟨nofun, fun h => absurd (h.2 most rfl) (Nat.not_le_of_lt hg)⟩
      · simp only [if_neg hg]
        refine ⟨fun _ => ⟨Nat.le_of_not_lt hl, fun m hm => ?_⟩, fun _ => trivial⟩
        obtain rfl := Option.some.inj hm
        exact Nat.le_of_not_lt hg

namespace Parser
variable {ending : Ending} {inner : Nested Parser} {r levels : Nat}

def Yields (ending : Ending) (rank levels : Nat) (parser : Parser Expr) : Prop :=
  ∀ c e c', parser c = .ok (e, c') → ∃ p : Phrase, p.Fits rank levels ∧ p.tree = e ∧
    Advances ending p.tokens p.operators c c'

def YieldsAll (ending : Ending) (levels : Nat) (parser : Parser (List Expr)) : Prop :=
  ∀ c es c', parser c = .ok (es, c') → 0 < levels ∧ ∃ ps : List Phrase,
    (∀ p ∈ ps, p.Fits (loosest + 2) levels) ∧ (ps.map fun p => p.tree) = es ∧
    Advances ending (Phrase.separated (ps.map fun p => p.tokens))
      ((ps.map fun p => p.operators).foldr (· + ·) 0) c c'

structure Nested.Sound (ending : Ending) (levels : Nat) (inner : Nested Parser) : Prop where
  expression : Yields ending (loosest + 2) levels inner.expression
  arguments : YieldsAll ending levels inner.arguments
  power : Yields ending 2 levels inner.power
  signed : Yields ending 1 levels inner.signed

theorem foldr_max_lt {ns : List Nat} {n : Nat} (hn : 0 < n) (h : ∀ m ∈ ns, m < n) :
    ns.foldr max 0 < n := by
  induction ns with
  | nil => exact hn
  | cons m ns ih =>
    have := h m List.mem_cons_self
    have := ih fun k hk => h k (List.mem_cons_of_mem m hk)
    simp only [List.foldr_cons]
    omega

theorem call_yields (h : inner.Sound ending levels) {name : String} {start : Nat} {c c' : Cursor}
    {e : Expr} (hc : c.token? = some .openParen) (hp : call ending inner name start c = .ok (e, c')) :
    ∃ ps : List Phrase, (Phrase.call name ps).Fits 0 (levels + 1) ∧ (Phrase.call name ps).tree = e ∧
      Advances ending
        (.openParen :: (Phrase.separated (ps.map fun p => p.tokens) ++ [.closeParen]))
        (Phrase.call name ps).operators c c' := by
  unfold call at hp
  rcases hf : Function.find? name with _ | f
  · rw [hf] at hp
    cases hp
  · rw [hf] at hp
    obtain ⟨c₁, h₁, hp⟩ := move_bind_eq_ok.mp hp
    obtain ⟨es, c₂, h₂, hp⟩ := bind_eq_ok.mp hp
    obtain ⟨c₃, h₃, hp⟩ := move_bind_eq_ok.mp hp
    obtain ⟨⟨⟩, h₄, hp⟩ := check_bind_eq_ok.mp hp
    obtain ⟨rfl, rfl⟩ := pure_eq_ok.mp hp
    obtain ⟨hl, ps, hps, rfl, hadv⟩ := h.arguments _ _ _ h₂
    have hname := Function.find?_eq_some.mp hf
    have htakes := checkCount_eq_ok.mp h₄
    rw [List.length_map] at htakes
    refine ⟨ps, ⟨Nat.zero_le _, ?_, ?_, ?_⟩, ?_, ?_⟩
    · rw [Phrase.Grammatical]
      exact fun p hp => (hps p hp).grammatical
    · rw [Phrase.CallsFit]
      exact ⟨⟨f, hname, htakes⟩, fun p hp => (hps p hp).callsFit⟩
    · rw [Phrase.nesting]
      refine Nat.add_lt_add_right (foldr_max_lt hl fun n hn => ?_) 1
      obtain ⟨p, hp, rfl⟩ := List.mem_map.mp hn
      exact (hps p hp).nesting_lt
    · rw [Phrase.tree, hname]
    · rw [Phrase.operators]
      simpa using ((next_advances hc h₁).trans hadv).trans (require_advances h₃)

theorem primary_yields (h : inner.Sound ending levels) :
    Yields ending 0 (levels + 1) (primary ending inner) := by
  intro c e c' hp
  unfold primary at hp
  rw [cursor_bind] at hp
  rcases ha : c.ahead with _ | ⟨⟨t, start, stop⟩, rest⟩
  · rw [ha] at hp
    cases hp
  have ht : c.token? = some t := token?_eq_some.mpr ⟨_, rest, ha, rfl⟩
  rw [ha] at hp
  cases t with
  | number value =>
    obtain ⟨c₁, h₁, hp⟩ := move_bind_eq_ok.mp hp
    obtain ⟨rfl, rfl⟩ := pure_eq_ok.mp hp
    refine ⟨.number value, ⟨Nat.zero_le _, ?_, ?_, ?_⟩, ?_, ?_⟩ <;>
      simp [Phrase.Grammatical, Phrase.CallsFit, Phrase.nesting, Phrase.tree, Phrase.tokens,
        Phrase.operators, next_advances ht h₁]
  | boolean value =>
    obtain ⟨c₁, h₁, hp⟩ := move_bind_eq_ok.mp hp
    obtain ⟨rfl, rfl⟩ := pure_eq_ok.mp hp
    refine ⟨.boolean value, ⟨Nat.zero_le _, ?_, ?_, ?_⟩, ?_, ?_⟩ <;>
      simp [Phrase.Grammatical, Phrase.CallsFit, Phrase.nesting, Phrase.tree, Phrase.tokens,
        Phrase.operators, next_advances ht h₁]
  | openParen =>
    obtain ⟨c₁, h₁, hp⟩ := move_bind_eq_ok.mp hp
    obtain ⟨e₁, c₂, h₂, hp⟩ := bind_eq_ok.mp hp
    obtain ⟨c₃, h₃, hp⟩ := move_bind_eq_ok.mp hp
    obtain ⟨rfl, rfl⟩ := pure_eq_ok.mp hp
    obtain ⟨p, hf, rfl, hadv⟩ := h.expression _ _ _ h₂
    refine ⟨.parens p, ⟨Nat.zero_le _, ?_, ?_, ?_⟩, ?_, ?_⟩
    · rw [Phrase.Grammatical]; exact hf.grammatical
    · rw [Phrase.CallsFit]; exact hf.callsFit
    · rw [Phrase.nesting]; exact Nat.add_lt_add_right hf.nesting_lt 1
    · rw [Phrase.tree]
    · rw [Phrase.tokens, Phrase.operators]
      simpa using ((next_advances ht h₁).trans hadv).trans (require_advances h₃)
  | identifier name =>
    obtain ⟨c₁, h₁, hp⟩ := move_bind_eq_ok.mp hp
    have hadv := next_advances ht h₁
    rw [cursor_bind] at hp
    -- the name is a call if a parenthesis is next, and otherwise a variable
    by_cases hopen : c₁.token? = some .openParen
    · rw [if_pos hopen] at hp
      obtain ⟨ps, hf, he, hadv'⟩ := call_yields h hopen hp
      refine ⟨.call name ps, hf, he, ?_⟩
      rw [Phrase.tokens]
      simpa using hadv.trans hadv'
    · rw [if_neg hopen] at hp
      obtain ⟨rfl, rfl⟩ := pure_eq_ok.mp hp
      refine ⟨.var name, ⟨Nat.zero_le _, ?_, ?_, ?_⟩, ?_, ?_⟩ <;>
        simp [Phrase.Grammatical, Phrase.CallsFit, Phrase.nesting, Phrase.tree, Phrase.tokens,
          Phrase.operators, hadv]
  | _ => cases hp

private theorem sign_yields (h : inner.Sound ending levels) (s : PrefixSign) {c c₁ c' : Cursor}
    {e : Expr}
    (hc : c.token? = some s.token) (h₁ : next ending c = .ok c₁)
    (h₂ : inner.signed c₁ = .ok (e, c')) :
    ∃ p : Phrase, p.Fits 1 (levels + 1) ∧ p.tree = s.apply e ∧
      Advances ending p.tokens p.operators c c' := by
  obtain ⟨p, hf, rfl, hadv⟩ := h.signed _ _ _ h₂
  refine ⟨.signed s p, ⟨Nat.le_refl 1, ?_, ?_, ?_⟩, ?_, ?_⟩
  · rw [Phrase.Grammatical]; exact ⟨hf.rank_le, hf.grammatical⟩
  · rw [Phrase.CallsFit]; exact hf.callsFit
  · rw [Phrase.nesting]; exact Nat.add_lt_add_right hf.nesting_lt 1
  · rw [Phrase.tree]
  · rw [Phrase.tokens, Phrase.operators]
    simpa using (next_advances hc h₁).trans hadv

theorem signed_yields (h : inner.Sound ending levels) :
    Yields ending 1 (levels + 1) (signed ending inner) := by
  intro c e c' hp
  have hprimary (hp : primary ending inner c = .ok (e, c')) :
      ∃ p : Phrase, p.Fits 1 (levels + 1) ∧ p.tree = e ∧
        Advances ending p.tokens p.operators c c' := by
    obtain ⟨p, hf, he, hadv⟩ := primary_yields h c e c' hp
    exact ⟨p, hf.mono (Nat.zero_le 1), he, hadv⟩
  unfold signed at hp
  rw [cursor_bind] at hp
  rcases ht : c.token? with _ | t
  · rw [ht] at hp
    exact hprimary hp
  rw [ht] at hp
  cases t with
  | minus =>
    obtain ⟨c₁, h₁, hp⟩ := move_bind_eq_ok.mp hp
    obtain ⟨e₁, c₂, h₂, hp⟩ := bind_eq_ok.mp hp
    obtain ⟨rfl, rfl⟩ := pure_eq_ok.mp hp
    exact sign_yields h .minus ht h₁ h₂
  | not =>
    obtain ⟨c₁, h₁, hp⟩ := move_bind_eq_ok.mp hp
    obtain ⟨e₁, c₂, h₂, hp⟩ := bind_eq_ok.mp hp
    obtain ⟨rfl, rfl⟩ := pure_eq_ok.mp hp
    exact sign_yields h .not ht h₁ h₂
  | plus =>
    obtain ⟨c₁, h₁, hp⟩ := move_bind_eq_ok.mp hp
    exact sign_yields h .plus ht h₁ hp
  | _ => exact hprimary hp

private theorem binary_advances {l p : Phrase} {op : BinaryOp} {c c₁ c₂ c₃ c' : Cursor}
    (hc : ∃ t, c₁.token? = some t ∧ t.binaryOp? = some op)
    (hl : Advances ending l.tokens l.operators c c₁) (h₁ : countOperator ending c₁ = .ok c₂)
    (h₂ : next ending c₂ = .ok c₃) (hp : Advances ending p.tokens p.operators c₃ c') :
    Advances ending (Phrase.binary op l p).tokens (Phrase.binary op l p).operators c c' := by
  obtain ⟨t, ht, hop⟩ := hc
  obtain ⟨ha, hcount⟩ := countOperator_advances h₁
  have ht' : c₂.token? = some op.token := by
    rw [Token.token_of_binaryOp? hop, ← ht]
    simp only [Cursor.token?, ha]
  have := ((hl.trans hcount).trans (next_advances ht' h₂)).trans hp
  rw [Phrase.tokens, Phrase.operators]
  simpa [Nat.add_comm, Nat.add_left_comm, Nat.add_assoc] using this

private theorem power_yields (h : inner.Sound ending levels) :
    Yields ending 2 (levels + 1) (power ending inner) := by
  intro c e c' hp
  unfold power at hp
  obtain ⟨e₁, c₁, h₁, hp⟩ := bind_eq_ok.mp hp
  obtain ⟨l, hfl, rfl, hadvl⟩ := signed_yields h _ _ _ h₁
  rw [cursor_bind] at hp
  rcases hop : c₁.operator? 0 with _ | op
  · rw [hop] at hp
    obtain ⟨rfl, rfl⟩ := pure_eq_ok.mp hp
    exact ⟨l, hfl.mono (by decide), rfl, hadvl⟩
  · rw [hop] at hp
    obtain ⟨hlevel, hc⟩ := operator?_eq_some hop
    obtain rfl := op.level_eq_zero_iff.mp hlevel
    obtain ⟨c₂, h₂, hp⟩ := move_bind_eq_ok.mp hp
    obtain ⟨c₃, h₃, hp⟩ := move_bind_eq_ok.mp hp
    obtain ⟨e₂, c₄, h₄, hp⟩ := bind_eq_ok.mp hp
    obtain ⟨rfl, rfl⟩ := pure_eq_ok.mp hp
    obtain ⟨p, hf, rfl, hadv⟩ := h.power _ _ _ h₄
    refine ⟨.binary .power l p, ⟨Nat.le_refl 2, ?_, ?_, ?_⟩, ?_,
      binary_advances hc hadvl h₂ h₃ hadv⟩
    · rw [Phrase.Grammatical, if_pos rfl]
      exact ⟨⟨hfl.rank_le, hf.rank_le⟩, hfl.grammatical, hf.grammatical⟩
    · rw [Phrase.CallsFit]; exact ⟨hfl.callsFit, hf.callsFit⟩
    · rw [Phrase.nesting, if_pos rfl]
      exact Nat.max_lt.mpr ⟨hfl.nesting_lt, Nat.add_lt_add_right hf.nesting_lt 1⟩
    · rw [Phrase.tree]

private theorem chainFrom_yields {level : Nat} {operand : Parser Expr}
    (h : Yields ending (level + 2) levels operand) {turns : Nat} {c c₁ c' : Cursor} {l : Phrase}
    {e : Expr} (hfl : l.Fits (level + 3) levels) (hadvl : Advances ending l.tokens l.operators c c₁)
    (hp : chainFrom ending (level + 1) operand turns l.tree c₁ = .ok (e, c')) :
    ∃ p : Phrase, p.Fits (level + 3) levels ∧ p.tree = e ∧
      Advances ending p.tokens p.operators c c' := by
  induction turns generalizing l c₁ with
  | zero =>
    obtain ⟨rfl, rfl⟩ := pure_eq_ok.mp hp
    exact ⟨l, hfl, rfl, hadvl⟩
  | succ turns ih =>
    unfold chainFrom at hp
    rw [cursor_bind] at hp
    rcases hop : c₁.operator? (level + 1) with _ | op
    · rw [hop] at hp
      obtain ⟨rfl, rfl⟩ := pure_eq_ok.mp hp
      exact ⟨l, hfl, rfl, hadvl⟩
    · rw [hop] at hp
      obtain ⟨hlevel, hc⟩ := operator?_eq_some hop
      obtain ⟨c₂, h₂, hp⟩ := move_bind_eq_ok.mp hp
      obtain ⟨c₃, h₃, hp⟩ := move_bind_eq_ok.mp hp
      obtain ⟨e₂, c₄, h₄, hp⟩ := bind_eq_ok.mp hp
      obtain ⟨q, hf, rfl, hadv⟩ := h _ _ _ h₄
      have hne : op ≠ .power := fun he => by simp [he, BinaryOp.level] at hlevel
      refine ih (l := .binary op l q) ⟨?_, ?_, ?_, ?_⟩ (binary_advances hc hadvl h₂ h₃ hadv) ?_
      · exact Nat.le_of_eq (by rw [Phrase.rank, hlevel])
      · rw [Phrase.Grammatical, if_neg hne, hlevel]
        exact ⟨⟨hfl.rank_le, hf.rank_le⟩, hfl.grammatical, hf.grammatical⟩
      · rw [Phrase.CallsFit]; exact ⟨hfl.callsFit, hf.callsFit⟩
      · rw [Phrase.nesting, if_neg hne]; exact Nat.max_lt.mpr ⟨hfl.nesting_lt, hf.nesting_lt⟩
      · rw [Phrase.tree]; exact hp

theorem atLevel_yields (h : inner.Sound ending levels) (level : Nat) :
    Yields ending (level + 2) (levels + 1) (atLevel ending inner level) := by
  induction level with
  | zero => exact power_yields h
  | succ level ih =>
    intro c e c' hp
    unfold atLevel chain at hp
    obtain ⟨e₁, c₁, h₁, hp⟩ := bind_eq_ok.mp hp
    rw [cursor_bind] at hp
    obtain ⟨l, hfl, rfl, hadvl⟩ := ih _ _ _ h₁
    exact chainFrom_yields ih (hfl.mono (Nat.le_succ _)) hadvl hp

private theorem moreArguments_yields {argument : Parser Expr}
    (h : Yields ending (loosest + 2) levels argument) {turns : Nat} {c c' : Cursor}
    {es : List Expr} (hp : moreArguments ending argument turns c = .ok (es, c')) :
    ∃ ps : List Phrase, (∀ p ∈ ps, p.Fits (loosest + 2) levels) ∧ (ps.map fun p => p.tree) = es ∧
      Advances ending (ps.flatMap fun p => .comma :: p.tokens)
        ((ps.map fun p => p.operators).foldr (· + ·) 0) c c' := by
  induction turns generalizing c es with
  | zero =>
    obtain ⟨rfl, rfl⟩ := pure_eq_ok.mp hp
    exact ⟨[], by simp, rfl, .refl c⟩
  | succ turns ih =>
    unfold moreArguments at hp
    rw [cursor_bind] at hp
    by_cases hcomma : c.token? = some .comma
    · rw [if_pos hcomma] at hp
      obtain ⟨c₁, h₁, hp⟩ := move_bind_eq_ok.mp hp
      obtain ⟨e₁, c₂, h₂, hp⟩ := bind_eq_ok.mp hp
      obtain ⟨es', c₃, h₃, hp⟩ := bind_eq_ok.mp hp
      obtain ⟨rfl, rfl⟩ := pure_eq_ok.mp hp
      obtain ⟨p, hf, rfl, hadv⟩ := h _ _ _ h₂
      obtain ⟨ps, hps, rfl, hadvs⟩ := ih h₃
      refine ⟨p :: ps, List.forall_mem_cons.mpr ⟨hf, hps⟩, rfl, ?_⟩
      simpa using ((next_advances hcomma h₁).trans hadv).trans hadvs
    · rw [if_neg hcomma] at hp
      obtain ⟨rfl, rfl⟩ := pure_eq_ok.mp hp
      exact ⟨[], by simp, rfl, .refl c⟩

private theorem argumentList_yields {argument : Parser Expr} (hl : 0 < levels)
    (h : Yields ending (loosest + 2) levels argument) :
    YieldsAll ending levels (argumentList ending argument) := by
  intro c es c' hp
  refine ⟨hl, ?_⟩
  unfold argumentList at hp
  rw [cursor_bind] at hp
  by_cases hclose : c.token? = some .closeParen
  · rw [if_pos hclose] at hp
    obtain ⟨rfl, rfl⟩ := pure_eq_ok.mp hp
    exact ⟨[], by simp, rfl, .refl c⟩
  · rw [if_neg hclose] at hp
    obtain ⟨e₁, c₁, h₁, hp⟩ := bind_eq_ok.mp hp
    rw [cursor_bind] at hp
    obtain ⟨es', c₂, h₂, hp⟩ := bind_eq_ok.mp hp
    obtain ⟨rfl, rfl⟩ := pure_eq_ok.mp hp
    obtain ⟨p, hf, rfl, hadv⟩ := h _ _ _ h₁
    obtain ⟨ps, hps, rfl, hadvs⟩ := moreArguments_yields h h₂
    refine ⟨p :: ps, List.forall_mem_cons.mpr ⟨hf, hps⟩, rfl, ?_⟩
    simpa [Phrase.separated, List.flatMap_map] using hadv.trans hadvs

/-- The parsers for every number of levels yield phrases that keep to it. -/
theorem downFrom_sound (ending : Ending) (levels : Nat) :
    (downFrom ending levels).Sound ending levels := by
  induction levels with
  | zero => constructor <;> intro c e c' hp <;> nomatch hp
  | succ levels ih =>
    exact ⟨atLevel_yields ih loosest,
      argumentList_yields (Nat.succ_pos levels) (atLevel_yields ih loosest),
      power_yields ih, signed_yields ih⟩

end Parser
end PriceFormula
