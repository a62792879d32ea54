import Mathlib.Data.List.Chain
import PriceFormula.Proofs.Expr.Checked
import PriceFormula.Proofs.Expr.Metered

/-! The size of expressions: how many binary operators they have, how deep their prefix operators
and calls nest, and how long the paths through them are. Parsed expressions are of bounded size,
since the parser counts the operators and the nesting of the text. -/

namespace PriceFormula

namespace Expr

inductive Part : Expr → Expr → Prop
  | left {op : BinaryOp} {l r : Expr} : Part (binary op l r) l
  | right {op : BinaryOp} {l r : Expr} : Part (binary op l r) r
  | operand {op : UnaryOp} {e : Expr} : Part (unary op e) e
  | argument {name : String} {es : List Expr} {e : Expr} : e ∈ es → Part (call name es) e

/-- The nodes on the way from the root of an expression downward. -/
def Path (e : Expr) (nodes : List Expr) : Prop := nodes.head? = some e ∧ nodes.IsChain Part

def binaries : Expr → Nat
  | number _ | boolean _ | var _ => 0
  | binary _ l r => l.binaries + r.binaries + 1
  | unary _ e => e.binaries
  | call _ es => (es.map fun e => e.binaries).foldr (· + ·) 0

def height : Expr → Nat
  | number _ | boolean _ | var _ => 1
  | binary _ l r => max l.height r.height + 1
  | unary _ e => e.height + 1
  | call _ es => (es.map fun e => e.height).foldr max 0 + 1

/-- Whether the root is a prefix operator or a call. -/
def nests : Expr → Bool
  | unary _ _ | call _ _ => true
  | number _ | boolean _ | var _ | binary _ _ _ => false

def nesting : Expr → Nat
  | number _ | boolean _ | var _ => 0
  | binary _ l r => max l.nesting r.nesting
  | unary _ e => e.nesting + 1
  | call _ es => (es.map fun e => e.nesting).foldr max 0 + 1

private theorem le_foldr_max {ns : List Nat} {n : Nat} (h : n ∈ ns) : n ≤ ns.foldr max 0 :=
  Nat.le_of_lt_succ ((Parser.lt_of_foldr_max_lt (Nat.lt_succ_self _)).2 n h)

private theorem foldr_max_le {ns : List Nat} {n : Nat} (h : ∀ m ∈ ns, m ≤ n) : ns.foldr max 0 ≤ n :=
  Nat.le_of_lt_succ (Parser.foldr_max_lt n.succ_pos fun m hm => Nat.lt_succ_of_le (h m hm))

private theorem height_part {e e' : Expr} (h : Part e e') : e'.height + 1 ≤ e.height := by
  cases h with
  | left =>
    rw [height]
    exact Nat.succ_le_succ (Nat.le_max_left _ _)
  | right =>
    rw [height]
    exact Nat.succ_le_succ (Nat.le_max_right _ _)
  | operand => exact Nat.le_of_eq (by rw [height])
  | argument he =>
    rw [height]
    exact Nat.succ_le_succ (le_foldr_max (List.mem_map_of_mem he))

private theorem nesting_part {e e' : Expr} (h : Part e e') :
    e'.nesting + e.nests.toNat ≤ e.nesting := by
  cases h with
  | left =>
    rw [nesting]
    exact Nat.le_max_left _ _
  | right =>
    rw [nesting]
    exact Nat.le_max_right _ _
  | operand => exact Nat.le_of_eq (by rw [nesting]; rfl)
  | argument he =>
    rw [nesting]
    exact Nat.succ_le_succ (le_foldr_max (List.mem_map_of_mem he))

private theorem nests_le_nesting (e : Expr) : e.nests.toNat ≤ e.nesting := by
  cases e with
  | unary op e =>
    rw [nesting]
    exact Nat.succ_le_succ (Nat.zero_le _)
  | call name es =>
    rw [nesting]
    exact Nat.succ_le_succ (Nat.zero_le _)
  | _ => exact Nat.zero_le _

private theorem height_pos (e : Expr) : 0 < e.height := by
  cases e <;> rw [height] <;> exact Nat.succ_pos _

/-- A size that falls from an expression to its parts by at least what the root counts bounds the
count along every path. -/
theorem Path.countP_le {size : Expr → Nat} {counts : Expr → Bool}
    (hpart : ∀ e e', Part e e' → size e' + (counts e).toNat ≤ size e)
    (hroot : ∀ e, (counts e).toNat ≤ size e) {e : Expr} {nodes : List Expr} (h : e.Path nodes) :
    nodes.countP counts ≤ size e := by
  induction nodes generalizing e with
  | nil => exact Nat.zero_le _
  | cons e' nodes ih =>
    obtain ⟨hhead, hchain⟩ := h
    obtain rfl := Option.some.inj hhead
    have hcount : (e' :: nodes).countP counts = nodes.countP counts + (counts e').toNat := by
      rw [List.countP_cons]
      cases counts e' <;> rfl
    rw [hcount]
    cases nodes with
    | nil =>
      rw [List.countP_nil, Nat.zero_add]
      exact hroot e'
    | cons e'' nodes =>
      obtain ⟨hstep, hrest⟩ := List.isChain_cons_cons.mp hchain
      exact (Nat.add_le_add_right (ih ⟨rfl, hrest⟩) _).trans (hpart e' e'' hstep)

private theorem Path.length_le_height {e : Expr} {nodes : List Expr} (h : e.Path nodes) :
    nodes.length ≤ e.height := by
  rw [← List.countP_true]
  exact h.countP_le (fun _ _ => height_part) height_pos

theorem Path.countP_nests_le {e : Expr} {nodes : List Expr} (h : e.Path nodes) :
    nodes.countP nests ≤ e.nesting :=
  h.countP_le (fun _ _ => nesting_part) nests_le_nesting

/-- A path has a node for each binary operator and each nested operator or call that it meets, and
one more at its end. -/
theorem height_le (e : Expr) : e.height ≤ e.binaries + e.nesting + 1 := by
  induction e with
  | number v => rw [height]; omega
  | boolean v => rw [height]; omega
  | var x => rw [height]; omega
  | binary op l r ihl ihr =>
    rw [height, binaries, nesting]
    omega
  | unary op e ih =>
    rw [height, binaries, nesting]
    omega
  | call name es ih =>
    rw [height, binaries, nesting]
    refine Nat.succ_le_succ (foldr_max_le fun n hn => ?_)
    obtain ⟨e, he, rfl⟩ := List.mem_map.mp hn
    have hbinaries : e.binaries ≤ (es.map fun e => e.binaries).foldr (· + ·) 0 :=
      List.le_sum_of_mem (List.mem_map_of_mem he)
    have hnesting : e.nesting ≤ (es.map fun e => e.nesting).foldr max 0 :=
      le_foldr_max (List.mem_map_of_mem he)
    have := ih e he
    omega

private theorem Demands.part {b : Bindings} {e e' : Expr} (h : Demands b e e') : Part e e' := by
  cases h with
  | left => exact .left
  | right => exact .right
  | operand => exact .operand
  | argument => exact .argument (List.mem_append_right _ List.mem_cons_self)

end Expr

namespace Phrase

/-- The binary nodes of a tree are the binary operators that its phrase counts. -/
theorem binaries_tree (p : Phrase) : p.tree.binaries = p.operators := by
  induction p with
  | number v => rw [tree, operators, Expr.binaries]
  | boolean v => rw [tree, operators, Expr.binaries]
  | var x => rw [tree, operators, Expr.binaries]
  | parens p ih => rw [tree, operators, ih]
  | call x ps ih =>
    rw [tree, operators, Expr.binaries, List.map_map]
    exact congrArg _ (List.map_congr_left ih)
  | signed s p ih =>
    rw [tree, operators]
    cases s with
    | plus => exact ih
    | minus | not => rw [PrefixSign.apply, Expr.binaries, ih]
  | binary op l r ihl ihr => rw [tree, operators, Expr.binaries, ihl, ihr]

/-- A tree nests no deeper than its phrase, which has parentheses, plus signs and right sides of
powers besides. -/
theorem nesting_tree_le (p : Phrase) : p.tree.nesting ≤ p.nesting := by
  induction p with
  | number v => rw [tree, Expr.nesting]; exact Nat.zero_le _
  | boolean v => rw [tree, Expr.nesting]; exact Nat.zero_le _
  | var x => rw [tree, Expr.nesting]; exact Nat.zero_le _
  | parens p ih =>
    rw [tree, nesting]
    exact ih.trans (Nat.le_succ _)
  | call x ps ih =>
    rw [tree, nesting, Expr.nesting]
    refine Nat.succ_le_succ (Expr.foldr_max_le fun n hn => ?_)
    rw [List.map_map] at hn
    obtain ⟨p, hp, rfl⟩ := List.mem_map.mp hn
    exact (ih p hp).trans (Expr.le_foldr_max (List.mem_map_of_mem hp))
  | signed s p ih =>
    rw [tree, nesting]
    cases s with
    | plus => exact ih.trans (Nat.le_succ _)
    | minus | not =>
      rw [PrefixSign.apply, Expr.nesting]
      exact Nat.succ_le_succ ih
  | binary op l r ihl ihr =>
    rw [tree, nesting, Expr.nesting]
    split <;> omega

end Phrase

namespace Expr

/-- Accepted expressions are of bounded size. They have no more binary nodes than operators may be,
and on no path do prefix operators and calls nest deeper than levels may be open; so no path is
longer than both limits and one more node together, and neither is a chain of evaluations each of
which waits for the next. The parser never goes deeper either, whether or not it accepts the text:
run so that it keeps the number of open levels at each step, with turns enough that nothing but its
count stops it, it gives the same result and never has more of them open than may be. -/
theorem parse_bounded (text : String) :
    (∀ e, parse text = .ok e →
      e.binaries ≤ operatorLimit ∧
      (∀ nodes, e.Path nodes → nodes.countP nests ≤ nestingLimit ∧
        nodes.length ≤ operatorLimit + nestingLimit + 1) ∧
      ∀ (b : Bindings) (nodes : List Expr), nodes.head? = some e → nodes.IsChain (Demands b) →
        nodes.length ≤ operatorLimit + nestingLimit + 1) ∧
    ∀ (beyond : Parser.Nested (Metered (List Nat))) turns, nestingLimit < turns →
      let run := Metered.run beyond turns [] (.ofText text.toList)
      run.1.mapError (ParseError.toExprError text) = parse text ∧
        ∀ depth ∈ run.2.log, depth ≤ nestingLimit := by
  refine ⟨fun e he => ?_, fun beyond turns hturns => ?_⟩
  · obtain ⟨p, -, rfl, -, -, hoperators, hnesting⟩ := parse_eq_ok.mp he
    have hbinaries : p.tree.binaries ≤ operatorLimit := p.binaries_tree ▸ hoperators
    have hdeep : p.tree.nesting ≤ nestingLimit := p.nesting_tree_le.trans hnesting
    have hlength (nodes : List Expr) (h : p.tree.Path nodes) :
        nodes.length ≤ operatorLimit + nestingLimit + 1 := by
      have := h.length_le_height
      have := p.tree.height_le
      omega
    exact ⟨hbinaries, fun nodes h => ⟨h.countP_nests_le.trans hdeep, hlength nodes h⟩,
      fun b nodes hhead h => hlength nodes ⟨hhead, h.imp fun _ _ => Demands.part⟩⟩
  · have hkeeps : ∀ depth ≤ nestingLimit,
        Log.Keeps (fun log : List Nat => ∀ depth ∈ log, depth ≤ nestingLimit) depth :=
      fun depth hdepth log hlog => List.forall_mem_cons.mpr ⟨hdepth, hlog⟩
    obtain ⟨hresult, hkept⟩ := Metered.run_eq hkeeps beyond hturns (List.forall_mem_nil _)
      (.ofText text.toList)
    exact ⟨by rw [hresult, parse], hkept⟩

/-- The longest path through an operand in parentheses behind a plus sign, which leave no node but
are open together with three more levels when the last variable in them is read. -/
theorem parse_bounded_of_power :
    let root := call "abs" [var "b"]
    let base := binary .power (var "a") (unary .negate root)
    let e := binary .multiply base (var "c")
    let nodes := [e, base, unary .negate root, root, var "b"]
    let text := "+(a ** -abs(b)) * c"
    let run := Metered.run (Parser.tooDeep ⟨0, none⟩) 65 ([] : List Nat) (.ofText text.toList)
    parse text = .ok e ∧ (e.Path nodes ∧ nodes.length ≤ 577) ∧
      5 ∈ run.2.log ∧ ∀ depth ∈ run.2.log, depth ≤ 64 := by
  intro root base e nodes text run
  have hparse : parse text = .ok e := by cbv
  have hpath : e.Path nodes := ⟨rfl, .cons_cons .left (.cons_cons .right (.cons_cons .operand
    (.cons_cons (.argument List.mem_cons_self) (.singleton _))))⟩
  have hdeepest : 5 ∈ run.2.log := by decide +kernel
  obtain ⟨haccepted, hcounted⟩ := parse_bounded text
  exact ⟨hparse, ⟨hpath, ((haccepted e hparse).2.1 nodes hpath).2⟩, hdeepest,
    (hcounted (Parser.tooDeep ⟨0, none⟩) 65 (by decide)).2⟩

end Expr
end PriceFormula
