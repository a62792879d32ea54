import PriceFormula.Expr.Parser

/-! Byte offsets. Tokens lie in their text in order, each at the offset that it is given, up to the
end of the text or a character with which none starts. -/

namespace PriceFormula

structure Text.CutAt (text : String) (position : Nat) (front rest : String) : Prop where
  text_eq : text = front ++ rest
  utf8ByteSize_front : front.utf8ByteSize = position

theorem Text.cutAt_of_toList {text : String} {front rest : List Char} {position : Nat}
    (h : text.toList = front ++ rest) (hposition : position = 0 + width front) :
    CutAt text position (String.ofList front) (String.ofList rest) := by
  refine ⟨?_, ?_⟩
  · rw [← String.ofList_append, ← h, String.ofList_toList]
  · rw [utf8ByteSize_ofList, hposition, Nat.zero_add]

namespace TokenList

def before (input : TokenList) (position : Nat) : List Token :=
  (input.tokens.filter fun l => l.start < position).map Located.token

section Offsets
open Text

/-- A located token is recognised at its offset. -/
theorem exists_text_of_tokens {s : List Char} {offset : Nat} {taken later : List Located}
    {l : Located}
    (h : (ofSegments offset (Segment.cut Token.find s)).tokens = taken ++ l :: later) :
    ∃ front c tail more, s = front ++ c :: tail ∧ l.start = offset + width front ∧
      Token.find c tail = some (l.token, more) := by
  induction s using Segment.induct Token.find generalizing offset taken with
  | nil => simp [ofSegments] at h
  | found c rest t more hfind ih =>
    rw [Segment.cut_of_found hfind, ofSegments] at h
    cases taken with
    | nil =>
      obtain ⟨rfl, -⟩ := List.cons.inj h
      exact ⟨[], c, rest, more, rfl, rfl, hfind⟩
    | cons first taken =>
      obtain ⟨-, h⟩ := List.cons.inj h
      obtain ⟨front, d, tail, more', hrest, hstart, hfound⟩ := ih h
      refine ⟨c :: rest.take more ++ front, d, tail, more', ?_, ?_, hfound⟩
      · rw [List.append_assoc, ← hrest, List.cons_append, List.take_append_drop]
      · rw [hstart, width_append, Nat.add_assoc]
  | plain c rest hfind ih =>
    rw [Segment.cut_of_none hfind, ofSegments] at h
    split at h
    · obtain ⟨front, d, tail, more, rfl, hstart, hfound⟩ := ih h
      refine ⟨c :: front, d, tail, more, rfl, ?_, hfound⟩
      rw [hstart, Nat.add_assoc]
      rfl
    · simp at h

/-- Tokens end with the text or at a character with which none starts. -/
theorem exists_text_of_ending (s : List Char) (offset : Nat) {ending : Ending}
    (h : (ofSegments offset (Segment.cut Token.find s)).ending = ending) :
    ∃ front rest, s = front ++ rest ∧ ending.position = offset + width front ∧
      (ending.stray = none → rest = []) ∧
      ∀ d, ending.stray = some d → ∃ tail, rest = d :: tail ∧ Token.find d tail = none ∧
        isBlank d = false := by
  induction s using Segment.induct Token.find generalizing offset with
  | nil =>
    subst h
    exact ⟨[], [], rfl, rfl, fun _ => rfl, fun d hd => by cases hd⟩
  | found c rest t more hfind ih =>
    rw [Segment.cut_of_found hfind, ofSegments] at h
    obtain ⟨front, behind, hrest, hposition, hend⟩ := ih _ h
    refine ⟨c :: rest.take more ++ front, behind, ?_, ?_, hend⟩
    · rw [List.append_assoc, ← hrest, List.cons_append, List.take_append_drop]
    · rw [hposition, width_append, Nat.add_assoc]
  | plain c rest hfind ih =>
    rw [Segment.cut_of_none hfind, ofSegments] at h
    split at h
    · obtain ⟨front, behind, rfl, hposition, hend⟩ := ih _ h
      refine ⟨c :: front, behind, rfl, ?_, hend⟩
      rw [hposition, Nat.add_assoc]
      rfl
    · rename_i hblank
      subst h
      refine ⟨[], c :: rest, rfl, rfl, ?_, ?_⟩
      · intro hnone
        cases hnone
      · intro d hd
        obtain rfl := Option.some.inj hd
        exact ⟨rest, rfl, hfind, by simpa using hblank⟩

/-- Every token starts behind those before it and before the ending. -/
theorem starts_ordered (s : List Char) (offset : Nat) :
    let input := ofSegments offset (Segment.cut Token.find s)
    input.tokens.Pairwise (fun l l' => l.start < l'.start) ∧ offset ≤ input.ending.position ∧
      ∀ l ∈ input.tokens, offset ≤ l.start ∧ l.start < input.ending.position := by
  induction s using Segment.induct Token.find generalizing offset with
  | nil => exact ⟨.nil, Nat.le_refl _, by simp [ofSegments]⟩
  | found c rest t more hfind ih =>
    rw [Segment.cut_of_found hfind, ofSegments]
    -- a token takes at least one byte, so what follows it starts behind its start
    have hwidth : 0 < width (c :: rest.take more) := Nat.add_pos_left c.utf8Size_pos _
    obtain ⟨hpairwise, hend, hbetween⟩ := ih (offset + width (c :: rest.take more))
    dsimp only
    refine ⟨List.pairwise_cons.mpr ⟨?_, hpairwise⟩, ?_, List.forall_mem_cons.mpr ⟨?_, ?_⟩⟩
    · intro l hl
      have hl := (hbetween l hl).1
      exact Nat.lt_of_lt_of_le (Nat.lt_add_of_pos_right hwidth) hl
    · omega
    · exact ⟨Nat.le_refl _, Nat.lt_of_lt_of_le (Nat.lt_add_of_pos_right hwidth) hend⟩
    · intro l hl
      obtain ⟨hstart, hstop⟩ := hbetween l hl
      exact ⟨Nat.le_trans (Nat.le_add_right _ _) hstart, hstop⟩
  | plain c rest hfind ih =>
    rw [Segment.cut_of_none hfind, ofSegments]
    split
    · obtain ⟨hpairwise, hend, hbetween⟩ := ih (offset + c.utf8Size)
      refine ⟨hpairwise, by omega, ?_⟩
      intro l hl
      have := hbetween l hl
      omega
    · exact ⟨.nil, Nat.le_refl _, by simp⟩

/-- The tokens before the offset of a cursor are those that were taken before it. -/
theorem before_position {s : List Char} {taken : List Located} {c : Cursor}
    (h : (ofText s).tokens = taken ++ c.ahead) :
    (ofText s).before (Parser.position (ofText s).ending c) = taken.map Located.token := by
  obtain ⟨hpairwise, -, hbetween⟩ := starts_ordered s 0
  have hsplit : (ofSegments 0 (Segment.cut Token.find s)).tokens = taken ++ c.ahead := h
  rw [hsplit] at hpairwise hbetween
  obtain ⟨-, hahead, hcross⟩ := List.pairwise_append.mp hpairwise
  have htaken : taken.filter (fun l => l.start < Parser.position (ofText s).ending c) = taken := by
    refine List.filter_eq_self.mpr fun l hl => decide_eq_true ?_
    unfold Parser.position
    split
    · rename_i next rest hnext
      exact hcross l hl next (by rw [hnext]; exact List.mem_cons_self)
    · exact (hbetween l (List.mem_append_left _ hl)).2
  have hrest : c.ahead.filter (fun l => l.start < Parser.position (ofText s).ending c) = [] := by
    unfold Parser.position
    cases hnext : c.ahead with
    | nil => rfl
    | cons next rest =>
      rw [hnext] at hahead
      have hlater := (List.pairwise_cons.mp hahead).1
      refine List.filter_eq_nil_iff.mpr (List.forall_mem_cons.mpr ⟨by simp, ?_⟩)
      intro l hl
      exact fun h => Nat.lt_asymm (hlater l hl) (of_decide_eq_true h)
  rw [before, h, List.filter_append, htaken, hrest, List.append_nil]

end Offsets
end TokenList
end PriceFormula
