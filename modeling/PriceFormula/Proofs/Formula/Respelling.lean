import PriceFormula.Formula.Normal
import PriceFormula.Proofs.Expr.Spelling
import PriceFormula.Proofs.Text.Rewriting

/-! Normal form keeps names spelled out: none of its rewrites splits, merges or renames one, except
that `constant` before a parenthesis goes. -/

namespace PriceFormula

namespace Normal

def constantName : List Char := ['c', 'o', 'n', 's', 't', 'a', 'n', 't']

def group (s : List Char) : List Char := Text.replace constantCall ['('] s

private theorem eq_constantName_of_prefix {w s : List Char}
    (hw : ∀ c ∈ w, Token.isNamePart c = true)
    (hs : ∀ c, s.head? = some c → Token.isNamePart c = false) (h : constantCall <+: w ++ s) :
    w = constantName ∧ ∃ rest, s = '(' :: rest := by
  obtain ⟨rest, h⟩ := h
  have hsplit : constantName ++ '(' :: rest = w ++ s := h
  have htake := congrArg (List.takeWhile Token.isNamePart) hsplit
  rw [Text.takeWhile_append_of_stop (List.all_eq_true.mp (by decide)) (by rintro c ⟨⟩; decide),
    Text.takeWhile_append_of_stop hw hs] at htake
  subst htake
  exact ⟨rfl, rest, (List.append_cancel_left hsplit).symm⟩

private theorem group_cons {c : Char} (hc : Token.isNameStart c = false) (s : List Char) :
    group (c :: s) = c :: group s := by
  refine Text.replace_of_not_prefix fun ⟨rest, h⟩ => ?_
  obtain rfl : 'c' = c := (List.cons.inj h).1
  exact absurd hc (by decide)

private theorem head?_group {s : List Char}
    (hs : ∀ c, s.head? = some c → Token.isNamePart c = false) :
    (group s).head? = s.head? := by
  cases s with
  | nil => rfl
  | cons c s =>
    rw [group_cons (Token.isNameStart_of_not_isNamePart (hs c rfl))]
    rfl

/-- A run of name characters stays, or loses `constant` at its end before a parenthesis. -/
theorem group_run {w s : List Char} (hw : ∀ c ∈ w, Token.isNamePart c = true)
    (hs : ∀ c, s.head? = some c → Token.isNamePart c = false) :
    ∃ kept, group (w ++ s) = kept ++ group s ∧
      (kept = w ∨ w = kept ++ constantName ∧ s.head? = some '(') := by
  induction w with
  | nil => exact ⟨[], rfl, .inl rfl⟩
  | cons a w ih =>
    by_cases hprefix : constantCall <+: a :: w ++ s
    · obtain ⟨hname, rest, rfl⟩ := eq_constantName_of_prefix hw hs hprefix
      refine ⟨[], ?_, .inr ⟨hname, rfl⟩⟩
      rw [List.cons_append] at hprefix
      rw [List.cons_append, group, Text.replace_of_prefix hprefix, ← group, group_cons (by decide)]
      obtain ⟨rfl, rfl⟩ := List.cons.inj hname
      rfl
    · obtain ⟨kept, hkept, hcases⟩ := ih fun c hc => hw c (List.mem_cons_of_mem a hc)
      refine ⟨a :: kept, ?_, hcases.imp (congrArg (a :: ·)) (And.imp_left (congrArg (a :: ·)))⟩
      rw [List.cons_append] at hprefix
      rw [List.cons_append, group, Text.replace_of_not_prefix hprefix, ← group, hkept]
      rfl

end Normal

namespace Spelled
variable {names : String → Prop} {s : List Char}

private theorem group (h : Spelled names s) : Spelled names (Normal.group s) := by
  induction h with
  | nil => exact .nil
  | char hc _ ih =>
    rw [Normal.group_cons hc]
    exact .char hc ih
  | @word a w s ha hw hs hn _ ih =>
    have hword : ∀ c ∈ a :: w, Token.isNamePart c = true :=
      List.forall_mem_cons.mpr ⟨Token.isNamePart_of_isNameStart ha, hw⟩
    have hhead := Normal.head?_group hs
    rw [← hhead] at hs hn
    obtain ⟨kept, hkept, rfl | ⟨hname, hopen⟩⟩ := Normal.group_run hword (hhead ▸ hs)
    · rw [← List.cons_append, hkept]
      exact .word ha hw hs hn ih
    · rw [← List.cons_append, hkept]
      cases kept with
      | nil => exact ih
      | cons b kept =>
        obtain ⟨rfl, rfl⟩ := List.cons.inj hname
        exact .word ha (fun c hc => hw c (List.mem_append_left _ hc)) hs
          (fun _ _ => .inr (hhead.trans hopen)) ih

/-- Characters outside names may be exchanged for others outside names. -/
theorem map {f : Char → Char} (hpart : ∀ c, Token.isNamePart c = true → f c = c)
    (hother : ∀ c, Token.isNamePart c = false → Token.isNamePart (f c) = false)
    (hopen : f '(' = '(') (h : Spelled names s) : Spelled names (s.map f) := by
  have hhead {s : List Char} (hs : ∀ c, s.head? = some c → Token.isNamePart c = false) (c : Char)
      (hc : (s.map f).head? = some c) : Token.isNamePart c = false := by
    rw [List.head?_map] at hc
    obtain ⟨d, hd, rfl⟩ := Option.map_eq_some_iff.mp hc
    exact hother d (hs d hd)
  induction h with
  | nil => exact .nil
  | @char c s hc hs ih =>
    refine .char ?_ ih
    by_cases hp : Token.isNamePart c = true
    · rw [hpart c hp, hc]
    · exact Token.isNameStart_of_not_isNamePart (hother c (by simpa using hp))
  | @word a w s ha hw hs hn _ ih =>
    have hkept : w.map f = w := by
      rw [List.map_congr_left fun c hc => hpart c (hw c hc), List.map_id']
    rw [List.map_cons, List.map_append, hkept, hpart a (Token.isNamePart_of_isNameStart ha)]
    refine .word ha hw (hhead hs) (fun x hx => (hn x hx).imp_right fun ho => ?_) ih
    rw [List.head?_map, ho, Option.map_some, hopen]

/-- Names that are spelled out once the braces are dropped are so in the respelled text. -/
theorem respell (hcolon : ':' ∉ s)
    (h : Spelled names (s.filter fun c => c ≠ '{' ∧ c ≠ '}')) :
    Spelled names (Normal.respell s) := by
  unfold Normal.respell
  have hpointed := h.map (f := fun c => if c = ',' then '.' else c)
    (fun c hc => if_neg (by rintro rfl; exact absurd hc (by decide)))
    (fun c hc => by split <;> first | exact hc | decide) rfl
  have hseparated := hpointed.group.map (f := fun c => if c = ';' then ',' else c)
    (fun c hc => if_neg (by rintro rfl; exact absurd hc (by decide)))
    (fun c hc => by split <;> first | exact hc | decide) rfl
  simp only
  rw [Text.Marker.mark_eq_self]
  · exact hseparated
  · intro hmem
    obtain ⟨c, hc, hsemicolon⟩ := List.mem_map.mp hmem
    split at hsemicolon
    · nomatch hsemicolon
    · subst hsemicolon
      rcases Text.mem_of_mem_replace hc with hc | hc
      · obtain ⟨d, hd, hcomma⟩ := List.mem_map.mp hc
        split at hcomma
        · nomatch hcomma
        · subst hcomma
          exact hcolon (List.mem_filter.mp hd).1
      · exact absurd hc (by decide)

end Spelled
end PriceFormula
