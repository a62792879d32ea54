import PriceFormula.Proofs.Expr.Completeness
import PriceFormula.Proofs.Expr.Size

/-! The counters of the parser. Wherever a parser of the chain from whole expressions to calls
begins, and whatever it has counted until then, its counters are exact when it succeeds: the levels
it opened are closed again, and the binary operators of what it read are counted once each. -/

namespace PriceFormula

/-- The parsers of the chain, from the loosest one inward. -/
inductive Stage where
  /-- Operands joined by operators of one level; at level zero an operand or a power of one. -/
  | joined (level : Nat)
  | signed
  | primary
  | call (name : String) (start : Nat)

def Stage.parser {m : Type → Type} [MonadParser m] (ending : Ending) (inner : Parser.Nested m) :
    Stage → m Expr
  | joined level => Parser.atLevel ending inner level
  | signed => Parser.signed ending inner
  | primary => Parser.primary ending inner
  | call name start => Parser.call ending inner name start

/-- Between two cursors an expression was read that nests no deeper than so many levels: its binary
operators were counted, and at least one token was taken. -/
structure Cursor.Counts (levels : Nat) (c c' : Cursor) (e : Expr) : Prop where
  operators : c'.operators = c.operators + e.binaries
  limited : c.operators ≤ operatorLimit → c'.operators ≤ operatorLimit
  nesting : ∀ nodes, e.Path nodes → nodes.countP Expr.nests ≤ levels
  taken : ∃ taken, taken ≠ [] ∧ c.ahead = taken ++ c'.ahead

/-- The same with the levels counted that are open. All those opened meanwhile are closed. -/
structure Meter.Counts {σ : Type} (before after : Meter σ) (e : Expr) : Prop
    extends before.cursor.Counts (nestingLimit - before.depth) after.cursor e where
  depth : after.depth = before.depth

/-- A parser that is run one level deeper comes back one level deeper than it was asked for, so the
level that is closed then is the one that was opened. -/
def Metered.Closes {σ α : Type} [Log σ] (ending : Ending) (q : Metered σ α) (before : Meter σ) :
    Prop :=
  ∀ a after, MonadParser.deeper ending q before = (.ok a, after) →
    ∃ inside, q { before with depth := before.depth + 1 } = (.ok a, inside) ∧
      inside.depth = before.depth + 1 ∧ after = { inside with depth := before.depth }

namespace Parser
variable {ending : Ending} {inner : Nested Parser} {levels : Nat}

private theorem call_of_tail {name : String} {start : Nat} {c d : Cursor}
    (hahead : d.ahead.tail = c.ahead.tail)
    (hoperators : d.operators = c.operators) :
    call ending inner name start d = call ending inner name start c := by
  rw [call]
  cases Function.find? name with
  | none => rfl
  | some f =>
    have hnext : next ending d = next ending c := by rw [next, next, hahead, hoperators]
    dsimp only
    rw [move_bind, move_bind, hnext]

private theorem Advances.counts {p : Phrase} {c c' : Cursor} {e : Expr}
    (h : Advances ending p.tokens p.operators c c') (htree : p.tree = e)
    (hnesting : p.nesting < levels + 1) : c.Counts levels c' e := by
  obtain ⟨taken, hahead, htokens⟩ := h.ahead
  obtain ⟨t, ts, hcons, -⟩ := p.tokens_eq_cons
  subst htree
  refine ⟨by rw [h.counted, p.binaries_tree], fun hle => ?_, fun nodes hpath => ?_, taken,
    fun hnil => ?_, hahead⟩
  · exact h.limited.trans (Nat.max_le.mpr ⟨hle, Nat.le_refl _⟩)
  · exact hpath.countP_nests_le.trans (p.nesting_tree_le.trans (Nat.le_of_lt_succ hnesting))
  · rw [hcons, hnil] at htokens
    cases htokens

private theorem Yields.counts {rank : Nat} {q : Parser Expr} (h : Yields ending rank (levels + 1) q)
    {c c' : Cursor} {e : Expr} (hq : q c = .ok (e, c')) : c.Counts levels c' e := by
  obtain ⟨p, hfits, htree, hadv⟩ := h c e c' hq
  exact hadv.counts htree hfits.nesting_lt

/-- A call counts like the phrase of it that has its name in front, even where it is begun at
another token than a parenthesis. -/
private theorem call_counts (h : inner.Sound ending levels) {name : String} {start : Nat}
    {c c' : Cursor}
    {e : Expr} (hcall : call ending inner name start c = .ok (e, c')) : c.Counts levels c' e := by
  let named : Located := ⟨.identifier name, 0, 0⟩
  let opened : Cursor := ⟨⟨.openParen, 0, 0⟩ :: c.ahead.tail, c.operators⟩
  have hopened : call ending inner name start opened = .ok (e, c') :=
    (call_of_tail (c := c) (d := opened) rfl rfl).trans hcall
  obtain ⟨ps, hfits, htree, hadv⟩ := call_yields h (c := opened) rfl hopened
  obtain ⟨taken, hahead, htokens⟩ := hadv.ahead
  have hnamed : Advances ending (Phrase.call name ps).tokens (Phrase.call name ps).operators
      ⟨named :: opened.ahead, c.operators⟩ c' :=
    ⟨⟨named :: taken, congrArg (named :: ·) hahead, by rw [Phrase.tokens, ← htokens]; rfl⟩,
      hadv.counted, hadv.limited, fun _ => hadv.settled .cons⟩
  refine { hnamed.counts htree hfits.nesting_lt with taken := ?_ }
  obtain ⟨l, behind, rfl⟩ : ∃ l behind, taken = l :: behind :=
    List.exists_cons_of_ne_nil fun hnil => by rw [hnil] at htokens; cases htokens
  obtain ⟨-, htail⟩ := List.cons.inj hahead
  cases hc : c.ahead with
  | nil =>
    -- at the end nothing is left for the closing parenthesis
    rw [hc] at htail
    obtain ⟨rfl, -⟩ := List.append_eq_nil_iff.mp htail.symm
    simp at htokens
  | cons first rest =>
    rw [hc] at htail
    exact ⟨first :: behind, List.cons_ne_nil _ _, congrArg (first :: ·) htail⟩

private theorem stage_counts (h : inner.Sound ending levels) (stage : Stage) {c c' : Cursor}
    {e : Expr}
    (hp : stage.parser ending inner c = .ok (e, c')) : c.Counts levels c' e := by
  cases stage with
  | joined level => exact (atLevel_yields h level).counts hp
  | signed => exact (signed_yields h).counts hp
  | primary => exact (primary_yields h).counts hp
  | call name start => exact call_counts h hp

end Parser

namespace Metered
variable {σ α : Type} [Log σ] {ending : Ending} {depth : Nat} {good : σ → Prop}

private theorem deeper_eq_ok {q : Metered σ α} {before after : Meter σ} {a : α}
    (h : MonadParser.deeper ending q before = (.ok a, after)) :
    before.depth < nestingLimit ∧
      ∃ inside, q { before with depth := before.depth + 1 } = (.ok a, inside) ∧
        after = { inside with depth := inside.depth - 1 } := by
  change (enter ending >>= fun _ => _) before = _ at h
  by_cases hlimit : nestingLimit < before.depth + 1
  · have henter : enter ending before = (.error (.complaint .nestedTooDeeply
        (Parser.position ending before.cursor)), { before with depth := before.depth + 1 }) :=
      if_pos hlimit
    rw [bind_of_error henter] at h
    cases h
  · have henter : enter ending before = (.ok (), { before with depth := before.depth + 1 }) :=
      if_neg hlimit
    rw [bind_of_ok henter] at h
    rcases hq : q { before with depth := before.depth + 1 } with ⟨e | b, inside⟩
    · rw [bind_of_error hq] at h
      cases h
    · rw [bind_of_ok hq] at h
      cases h
      exact ⟨Nat.lt_of_not_le fun hle => hlimit (Nat.lt_succ_of_le hle), inside, rfl, rfl⟩

private theorem closes {p : Parser α} {q : Metered σ α} {before : Meter σ} (hgood : good before.log)
    (h : before.depth < nestingLimit → Tracks good (before.depth + 1) p q) :
    Closes ending q before := by
  intro a after hafter
  obtain ⟨hlimit, inside, hq, rfl⟩ := deeper_eq_ok hafter
  have hagrees := h hlimit { before with depth := before.depth + 1 } rfl hgood
  rw [hq] at hagrees
  dsimp only at hagrees
  generalize p before.cursor = r at hagrees
  cases hagrees with
  | ok hdepth _ =>
    exact ⟨inside, hq, hdepth, by rw [hdepth, Nat.add_sub_cancel]⟩

private theorem Nested.Tracked.stage {inner : Parser.Nested Parser}
    {deep : Parser.Nested (Metered σ)}
    (hkeeps : Log.Keeps good depth) (h : Nested.Tracked good ending depth inner deep)
    (stage : Stage) :
    Tracks good depth (stage.parser ending inner) (stage.parser ending deep) := by
  cases stage with
  | joined level => exact h.atLevel hkeeps level
  | signed => exact h.operand hkeeps
  | primary => exact h.primary hkeeps
  | call name start => exact h.call hkeeps name start

/-- The counters of the parser are exact. Every parser of the chain, begun at any cursor with any
number of operators counted and of levels open, gives the result of the parser that counts down the
levels left. If it succeeds, as many levels are open as before, the operators counted are those of
the expression more, still no more than may be, no path through the expression has more prefix
operators and calls than levels were left, and a token was taken. Run one level deeper, alone or as
the argument of a call, it closes exactly the level opened for it. All this holds whatever is kept
of the steps, which stays good if no step makes it bad. -/
theorem stage_counters_exact (hkeeps : ∀ depth ≤ nestingLimit, Log.Keeps good depth)
    (ending : Ending) (beyond : Parser.Nested (Metered σ)) (stage : Stage) (c : Cursor) {log : σ}
    (hlog : good log) {depth turns : Nat} (hdepth : depth ≤ nestingLimit)
    (hturns : nestingLimit ≤ depth + turns) :
    let inner := Parser.within ending beyond turns
    let before : Meter σ := ⟨c, depth, log⟩
    Agrees good depth (stage.parser ending (Parser.downFrom ending (nestingLimit - depth)) c)
        (stage.parser ending inner before) ∧
      (∀ e after, stage.parser ending inner before = (.ok e, after) → before.Counts after e) ∧
      Closes ending (stage.parser ending inner) before ∧
      Closes ending (Parser.argumentList ending (stage.parser ending inner)) before := by
  intro inner before
  have htracked {depth : Nat} (hdepth : depth ≤ nestingLimit)
      (hturns : nestingLimit ≤ depth + turns) :
      Tracks good depth (stage.parser ending (Parser.downFrom ending (nestingLimit - depth)))
        (stage.parser ending inner) :=
    (within_tracked hkeeps beyond (Nat.add_sub_of_le hdepth) (by omega)).stage (hkeeps _ hdepth)
      stage
  have hagrees := htracked hdepth hturns before rfl hlog
  refine ⟨hagrees, fun e after hafter => ?_,
    closes hlog fun hlt => htracked hlt (by dsimp only [before]; omega),
    closes hlog fun hlt =>
      (htracked hlt (by dsimp only [before]; omega)).argumentList (hkeeps _ hlt)⟩
  rw [hafter] at hagrees
  generalize hresult :
    stage.parser ending (Parser.downFrom ending (nestingLimit - depth)) before.cursor = result
    at hagrees
  cases hagrees with
  | ok hclosed _ =>
    exact ⟨Parser.stage_counts (Parser.downFrom_sound ending _) stage hresult, hclosed⟩

/-- With two levels and two operators left, a sum that needs both. -/
theorem stage_counters_exact_of_sum :
    let tokens : List Located := [⟨.minus, 0, 1⟩, ⟨.identifier "abs", 1, 4⟩, ⟨.openParen, 4, 5⟩,
      ⟨.identifier "b", 5, 6⟩, ⟨.closeParen, 6, 7⟩, ⟨.star, 8, 9⟩, ⟨.identifier "a", 10, 11⟩,
      ⟨.plus, 12, 13⟩, ⟨.identifier "c", 14, 15⟩]
    let ending : Ending := ⟨15, none⟩
    let inner : Parser.Nested (Metered Unit) := Parser.within ending (Parser.tooDeep ending) 2
    let before : Meter Unit := ⟨⟨tokens, 510⟩, 62, ()⟩
    let after : Meter Unit := ⟨⟨[], 512⟩, 62, ()⟩
    let root := Expr.call "abs" [.var "b"]
    let product := Expr.binary .multiply (.unary .negate root) (.var "a")
    let e := Expr.binary .add product (.var "c")
    let nodes := [e, product, .unary .negate root, root, .var "b"]
    TokenList.ofText "-abs(b) * a + c".toList = ⟨tokens, ending⟩ ∧
      (62 ≤ nestingLimit ∧ nestingLimit ≤ 62 + 2) ∧
      (Stage.joined Parser.loosest).parser ending inner before = (.ok e, after) ∧
      before.Counts after e ∧ after.cursor.operators = 512 ∧
      e.Path nodes ∧ nodes.countP Expr.nests = 2 := by
  intro tokens ending inner before after root product e nodes
  have hscan : TokenList.ofText "-abs(b) * a + c".toList = ⟨tokens, ending⟩ := by cbv
  have hread : (Stage.joined Parser.loosest).parser ending inner before = (.ok e, after) := by cbv
  have hdepth : 62 ≤ nestingLimit := by decide
  have hturns : nestingLimit ≤ 62 + 2 := by decide
  have hkeeps : ∀ depth ≤ nestingLimit, Log.Keeps (fun _ : Unit => True) depth :=
    fun _ _ _ _ => trivial
  obtain ⟨-, hcounts, -⟩ := stage_counters_exact hkeeps ending (Parser.tooDeep ending)
    (.joined Parser.loosest) ⟨tokens, 510⟩ trivial hdepth hturns
  have hpath : e.Path nodes := ⟨rfl, .cons_cons .left (.cons_cons .left (.cons_cons .operand
    (.cons_cons (.argument List.mem_cons_self) (.singleton _))))⟩
  exact ⟨hscan, ⟨hdepth, hturns⟩, hread, hcounts _ _ hread, rfl, hpath, rfl⟩

end Metered
end PriceFormula
