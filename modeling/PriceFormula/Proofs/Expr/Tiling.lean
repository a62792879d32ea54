import PriceFormula.Proofs.Expr.Offsets
import PriceFormula.Proofs.Expr.Scanner

/-! The scanner called again and again. Its tokens tile the text: they lie one behind the other with
nothing but blank characters between them, and what it has read and what is ahead make up the text
after every call. -/

namespace PriceFormula

namespace Token

private theorem ofWord_ne_number (w : List Char) (v : Float) : ofWord w ≠ number v := by
  intro h
  unfold ofWord at h
  simp only at h
  repeat' split at h
  all_goals cases h

private theorem find_of_isBlank {c : Char} (hc : Text.isBlank c = true) (rest : List Char) :
    find c rest = none := by
  have hbounds : c.toNat ≤ 32 ∨ 123 ≤ c.toNat := by
    simp only [Text.isBlank, Bool.or_eq_true, Bool.and_eq_true, decide_eq_true_eq] at hc
    omega
  have hname : isNameStart c = false := isNameStart_eq_false_of_bounds (by omega)
  have hdigit : c.isDigit = false := by
    rw [← Bool.not_eq_true]
    intro hd
    simp only [Char.isDigit, Bool.and_eq_true, decide_eq_true_eq, UInt32.le_iff_toNat_le] at hd
    have hlow : 48 ≤ c.toNat := hd.1
    have hhigh : c.toNat ≤ 57 := hd.2
    omega
  have hpoint : c ≠ '.' := by
    rintro rfl
    cases hc
  refine Option.eq_none_iff_forall_not_mem.mpr fun hit h => ?_
  obtain ⟨t, more⟩ := hit
  rcases find_of_not_nameStart hname h with ⟨d, hscan, -⟩ | ⟨hsign, -⟩
  · rw [Numeral.scan_eq_none hdigit hpoint] at hscan
    cases hscan
  · rw [hsign.not_blank] at hc
    cases hc

private theorem scan_of_find_number {c : Char} {rest : List Char} {v : Float} {more : Nat}
    (h : find c rest = some (number v, more)) :
    ∃ d, Numeral.scan (c :: rest) = some (d, more + 1) := by
  cases hc : isNameStart c with
  | true =>
    rw [find_of_nameStart hc] at h
    exact absurd (Prod.mk.inj (Option.some.inj h)).1 (ofWord_ne_number _ v)
  | false =>
    rcases find_of_not_nameStart hc h with ⟨d, hscan, -⟩ | ⟨hsign, -⟩
    · exact ⟨d, hscan⟩
    · exact absurd rfl (hsign.ne_number v)

end Token

namespace Scanner
open Text

structure State where
  position : Nat
  start : Nat
  /-- The current token; none at the end and before the first call. -/
  current : Option Token
  tokens : List Located

def step (s : List Char) (x : State) : Except Fault State := do
  let start ← skip s isBlank x.position
  let (current, stop) ← token s start
  return ⟨stop, start, current, x.tokens ++ current.toList.map fun t => ⟨t, start, stop⟩⟩

def run (s : List Char) : (calls : Nat) → Except Fault State
  | 0 => .ok ⟨0, 0, none, []⟩
  | calls + 1 => do
    let x ← run s calls
    step s x

/-- Tokens tile a text up to the last of them: before each of them stand blank characters only, then
the word that it is read from, which for a number is in the grammar of numbers. -/
inductive Tiles : List Char → List Located → Prop
  | nil : Tiles [] []
  | token {text : List Char} {tokens : List Located} {blanks word : List Char} {t : Token} :
    Tiles text tokens → (∀ c ∈ blanks, isBlank c = true) → t.WrittenAs word →
    (∀ v, t = .number v → Numeral.Grammatical word) →
    Tiles (text ++ blanks ++ word)
      (tokens ++ [⟨t, width (text ++ blanks), width (text ++ blanks ++ word)⟩])

inductive Call (x : State) : List Char → TokenList → Except Fault State → Prop
  | ended {blanks : List Char} : (∀ c ∈ blanks, isBlank c = true) →
    Call x blanks ⟨[], ⟨x.position + width blanks, none⟩⟩
      (.ok ⟨x.position + width blanks, x.position + width blanks, none, x.tokens⟩)
  | scanned {blanks word behind : List Char} {t : Token} {later : TokenList} {start stop : Nat} :
    (∀ c ∈ blanks, isBlank c = true) → t.WrittenAs word →
    (∀ v, t = .number v → Numeral.Grammatical word) →
    start = x.position + width blanks → stop = start + width word →
    later = TokenList.ofSegments stop (Segment.cut Token.find behind) →
    Call x (blanks ++ (word ++ behind)) ⟨⟨t, start, stop⟩ :: later.tokens, later.ending⟩
      (.ok ⟨stop, start, some t, x.tokens ++ [⟨t, start, stop⟩]⟩)
  | stray {blanks behind : List Char} {c : Char} : (∀ c ∈ blanks, isBlank c = true) →
    Call x (blanks ++ c :: behind) ⟨[], ⟨x.position + width blanks, some c⟩⟩
      (.error (.stray c (x.position + width blanks)))

private theorem ofSegments_blanks {blanks : List Char} (hblanks : ∀ c ∈ blanks, isBlank c = true)
    (rest : List Char) (offset : Nat) :
    TokenList.ofSegments offset (Segment.cut Token.find (blanks ++ rest)) =
      TokenList.ofSegments (offset + width blanks) (Segment.cut Token.find rest) := by
  induction blanks generalizing offset with
  | nil => rfl
  | cons c blanks ih =>
    obtain ⟨hc, hblanks⟩ := List.forall_mem_cons.mp hblanks
    rw [List.cons_append, Segment.cut_of_none (Token.find_of_isBlank hc _), TokenList.ofSegments,
      if_pos hc, ih hblanks, width_cons, Nat.add_assoc]

/-- A call finds the next of the tokens that are found without offsets. -/
theorem step_call {s rest : List Char} {x : State} (h : Ahead s x.position rest) :
    Call x rest (TokenList.ofSegments x.position (Segment.cut Token.find rest)) (step s x) := by
  obtain ⟨blanks, behind, rfl, hblanks, hstop⟩ : ∃ blanks behind, rest = blanks ++ behind ∧
      (∀ c ∈ blanks, isBlank c = true) ∧ ∀ c, behind.head? = some c → isBlank c = false := by
    refine ⟨rest.takeWhile isBlank, rest.drop (rest.takeWhile isBlank).length, ?_,
      fun c hc => List.mem_takeWhile_imp hc, fun c hc => Text.head?_drop_takeWhile hc⟩
    rw [Text.drop_length_takeWhile, List.takeWhile_append_dropWhile]
  have hbehind : Ahead s (x.position + width blanks) behind := h.append
  rw [step, h.skip hblanks hstop, ok_bind, ofSegments_blanks hblanks]
  cases behind with
  | nil =>
    rw [hbehind.token_end, List.append_nil, ok_bind]
    simp only [Option.toList_none, List.map_nil, List.append_nil]
    exact .ended hblanks
  | cons c tail =>
    cases hfind : Token.find c tail with
    | none =>
      rw [hbehind.token_none hfind, Segment.cut_of_none hfind, TokenList.ofSegments,
        if_neg (Bool.not_eq_true _ ▸ hstop c rfl)]
      exact .stray hblanks
    | some hit =>
      obtain ⟨t, more⟩ := hit
      have hsplit : c :: tail = (c :: tail.take more) ++ tail.drop more := by
        rw [List.cons_append, List.take_append_drop]
      rw [hbehind.token_found hfind, Segment.cut_of_found hfind, TokenList.ofSegments, ok_bind,
        hsplit]
      refine .scanned hblanks (Token.writtenAs_of_find hfind) (fun v hv => ?_) rfl rfl rfl
      subst hv
      obtain ⟨d, hscan⟩ := Token.scan_of_find_number hfind
      obtain ⟨w, behind, hw, hlength, hgrammatical, -⟩ := Numeral.exists_of_scan hscan
      have hword : c :: tail.take more = w := by
        rw [← List.take_succ_cons, hw, ← hlength, List.take_left]
      rwa [hword]

/-- The invariant of a scanner that was called so often, with the text ahead of it. Together with the
tokens ahead its tokens are those of the whole text. -/
structure Reached (s : List Char) (calls : Nat) (x : State) (rest : List Char) : Prop where
  tiled : ∃ read skipped, s = read ++ skipped ++ rest ∧ x.position = width (read ++ skipped) ∧
    Tiles read x.tokens ∧ ∀ c ∈ skipped, isBlank c = true
  input : TokenList.ofText s =
    ⟨x.tokens ++ (TokenList.ofSegments x.position (Segment.cut Token.find rest)).tokens,
      (TokenList.ofSegments x.position (Segment.cut Token.find rest)).ending⟩
  count : x.tokens.length = calls ∨ x.tokens.length < calls ∧ rest = []

private theorem Reached.ahead {s rest : List Char} {calls : Nat} {x : State}
    (h : Reached s calls x rest) :
    Ahead s x.position rest := by
  obtain ⟨read, skipped, hs, hposition, -⟩ := h.tiled
  exact ⟨read ++ skipped, hs, hposition.symm⟩

/-- The only fault is a character that no token starts with, and it is reached by the call behind
the last token. -/
def StrayAfter (s : List Char) (calls : Nat) (fault : Fault) : Prop :=
  ∃ c, fault = .stray c (TokenList.ofText s).ending.position ∧
    (TokenList.ofText s).ending.stray = some c ∧ (TokenList.ofText s).tokens.length < calls

/-- A call keeps the invariant, and moves past at least one character if it scans a token. -/
theorem Reached.step {s rest : List Char} {calls : Nat} {x : State} (h : Reached s calls x rest) :
    Ensures
      (fun y => ∃ passed behind, rest = passed ++ behind ∧ y.position = x.position + width passed ∧
        Reached s (calls + 1) y behind ∧ ∀ t, y.current = some t → passed ≠ [])
      (StrayAfter s (calls + 1)) (step s x) := by
  obtain ⟨read, skipped, hs, hposition, htiles, hskipped⟩ := h.tiled
  have hinput := h.input
  have hcall := step_call h.ahead
  generalize Scanner.step s x = result at hcall ⊢
  generalize TokenList.ofSegments x.position _ = input at hcall hinput
  cases hcall with
  | ended hblanks =>
    refine ⟨rest, [], (List.append_nil _).symm, rfl, ⟨⟨read, skipped ++ rest, ?_, ?_, htiles, ?_⟩,
      hinput, .inr ⟨?_, rfl⟩⟩, fun t ht => by cases ht⟩
    · rw [hs, List.append_nil, List.append_assoc]
    · rw [← List.append_assoc, width_append _ rest, ← hposition]
    · exact List.forall_mem_append.mpr ⟨hskipped, hblanks⟩
    · have hcount := h.count
      change x.tokens.length < calls + 1
      omega
  | @scanned blanks word behind t later start stop hblanks hword hgrammatical hstart hstop hlater =>
    have hnonempty : word ≠ [] := by
      rintro rfl
      exact hword
    have hpassed : blanks ++ word ≠ [] := fun hnil =>
      hnonempty (List.append_eq_nil_iff.mp hnil).2
    have hrest : blanks ++ (word ++ behind) = (blanks ++ word) ++ behind :=
      (List.append_assoc _ _ _).symm
    -- blanks that an earlier call passed over belong to the gap before this word
    have hgap : start = width (read ++ (skipped ++ blanks)) := by
      rw [hstart, hposition, ← width_append, List.append_assoc]
    have hread : stop = width (read ++ (skipped ++ blanks) ++ word) := by
      rw [hstop, hgap, ← width_append]
    refine ⟨blanks ++ word, behind, hrest, ?_,
      ⟨⟨read ++ (skipped ++ blanks) ++ word, [], ?_, ?_, ?_, List.forall_mem_nil _⟩, ?_, .inl ?_⟩,
      fun _ _ => hpassed⟩
    · rw [hstop, hstart, width_append, Nat.add_assoc]
    · rw [hs]
      simp only [List.append_assoc, List.nil_append]
    · rw [List.append_nil, hread]
    · rw [hgap, hread]
      exact htiles.token (List.forall_mem_append.mpr ⟨hskipped, hblanks⟩) hword hgrammatical
    · rw [hinput, ← hlater, List.append_assoc]
      rfl
    · have hcount : x.tokens.length = calls := h.count.resolve_right fun hend =>
        hpassed (List.append_eq_nil_iff.mp (hrest ▸ hend.2)).1
      rw [List.length_append, hcount]
      rfl
  | @stray blanks behind c hblanks =>
    have hcount : x.tokens.length = calls := h.count.resolve_right fun hend =>
      List.cons_ne_nil _ _ (List.append_eq_nil_iff.mp hend.2).2
    refine ⟨c, by rw [hinput], by rw [hinput], ?_⟩
    rw [hinput, List.append_nil, hcount]
    exact Nat.lt_succ_self _

/-- The run lemma: the invariant holds after any number of calls. -/
theorem run_reached (s : List Char) (calls : Nat) :
    Ensures (fun x => ∃ rest, Reached s calls x rest) (StrayAfter s calls) (run s calls) := by
  induction calls with
  | zero =>
    exact ⟨s, ⟨[], [], rfl, rfl, .nil, List.forall_mem_nil _⟩, rfl, .inl rfl⟩
  | succ calls ih =>
    rw [run]
    cases hrun : run s calls with
    | error fault =>
      rw [hrun] at ih
      obtain ⟨c, hfault, hstray, hlength⟩ := ih
      exact ⟨c, hfault, hstray, Nat.lt_succ_of_lt hlength⟩
    | ok x =>
      rw [hrun] at ih
      obtain ⟨rest, hreached⟩ := ih
      rw [ok_bind]
      exact hreached.step.imp fun y hy => by
        obtain ⟨passed, behind, -, -, hnext, -⟩ := hy
        exact ⟨behind, hnext⟩

/-- Tokens that tile a text take room in it. -/
theorem Tiles.start_lt_stop {text : List Char} {tokens : List Located} (h : Tiles text tokens) :
    ∀ l ∈ tokens, l.start < l.stop ∧ l.stop ≤ width text := by
  induction h with
  | nil => exact List.forall_mem_nil _
  | @token text tokens blanks word t _ _ hword _ ih =>
    obtain ⟨c, rest, rfl⟩ : ∃ c rest, word = c :: rest :=
      List.exists_cons_of_ne_nil (by rintro rfl; exact hword)
    have hc := c.utf8Size_pos
    refine List.forall_mem_append.mpr ⟨fun l hl => ?_, List.forall_mem_singleton.mpr ⟨?_, Nat.le_refl _⟩⟩
    · obtain ⟨hlt, hle⟩ := ih l hl
      rw [width_append, width_append]
      exact ⟨hlt, by omega⟩
    · rw [width_append _ (c :: rest), width_cons]
      exact Nat.lt_add_of_pos_right (Nat.add_pos_left hc _)

/-- The spans of tokens that tile a text are disjoint and in order. -/
theorem Tiles.pairwise {text : List Char} {tokens : List Located} (h : Tiles text tokens) :
    tokens.Pairwise fun l l' => l.stop ≤ l'.start := by
  induction h with
  | nil => exact .nil
  | @token text tokens blanks word t htiles _ _ _ ih =>
    refine List.pairwise_append.mpr ⟨ih, List.pairwise_singleton _ _, fun l hl l' hl' => ?_⟩
    obtain rfl := List.mem_singleton.mp hl'
    dsimp only
    rw [width_append]
    exact (htiles.start_lt_stop l hl).2.trans (Nat.le_add_right _ _)

structure Tiled (text : String) (calls : Nat) (x : State) : Prop where
  boundary : String.Pos.Raw.IsValid text ⟨x.position⟩
  position_le : x.position ≤ text.utf8ByteSize
  tokens_eq : x.tokens = (TokenList.ofText text.toList).tokens.take calls
  /-- What is read are the tokens with blank characters between them, and maybe more such ones. -/
  tiles : ∃ read skipped rest, text.toList = read ++ skipped ++ rest ∧
    x.position = width (read ++ skipped) ∧ Tiles read x.tokens ∧ ∀ c ∈ skipped, isBlank c = true
  disjoint : x.tokens.Pairwise fun l l' => l.stop ≤ l'.start
  /-- The next call moves past at least one character if it scans a token. -/
  progress : ∀ y t, step text.toList x = .ok y → y.current = some t → ∃ passed rest,
    passed ≠ [] ∧ Ahead text.toList x.position (passed ++ rest) ∧
      y.position = x.position + width passed

private theorem Reached.tiled_text {text : String} {calls : Nat} {x : State} {rest : List Char}
    (h : Reached text.toList calls x rest) : Tiled text calls x := by
  obtain ⟨read, skipped, hs, hposition, htiles, hskipped⟩ := h.tiled
  have hwidth : (String.ofList (read ++ skipped)).utf8ByteSize = x.position := by
    rw [utf8ByteSize_ofList, hposition]
  have htext : text = String.ofList (read ++ skipped) ++ String.ofList rest := by
    rw [← String.ofList_append, ← hs, String.ofList_toList]
  refine ⟨?_, ?_, ?_, ⟨read, skipped, rest, hs, hposition, htiles, hskipped⟩, htiles.pairwise, ?_⟩
  · refine String.Pos.Raw.isValid_iff_exists_append.mpr ⟨_, _, htext, ?_⟩
    rw [← hwidth]
    rfl
  · rw [htext, String.utf8ByteSize_append, hwidth]
    exact Nat.le_add_right _ _
  · rw [h.input]
    rcases h.count with hcount | hend
    · rw [← hcount, List.take_left]
    · obtain ⟨hlt, rfl⟩ := hend
      rw [List.take_of_length_le]
      · exact (List.append_nil _).symm
      · rw [List.length_append]
        exact Nat.le_of_lt hlt
  · intro y t hstep hcurrent
    have hnext := h.step
    rw [hstep] at hnext
    obtain ⟨passed, behind, rfl, hy, -, hmoved⟩ := hnext
    exact ⟨passed, behind, hmoved t hcurrent, h.ahead, hy⟩

/-- The scanner tiles the text. After any number of calls its offset is a boundary between
characters of the text; its tokens are the first ones that are found without offsets, one for each
call until the end; they and the blank characters around them are what it has read, numbers being
cut out as the grammar has them; and a call that scans a token moves past a character. The only
fault is a character that no token starts with: no look and no cut is ever off the boundaries, every
loop ends, and no number is malformed, since a number is read exactly if it is in the grammar. -/
theorem run_tiled (text : String) (calls : Nat) :
    Ensures (Tiled text calls) (StrayAfter text.toList calls) (run text.toList calls) ∧
      ∀ w, Numeral.Grammatical w ↔ ∃ d, d.negative = false ∧ Decimal.ofText? w = some d :=
  ⟨(run_reached text.toList calls).imp fun x hx => by
    obtain ⟨rest, hreached⟩ := hx
    exact hreached.tiled_text,
  fun _ => Numeral.grammatical_iff⟩

end Scanner
end PriceFormula
