import PriceFormula.Proofs.Expr.Scan
import PriceFormula.Proofs.Expr.Variables

/-! Texts in which names are spelled out: every run of letters, digits and underscores that starts
like a name is a keyword, one of some given names, or stands before a parenthesis. Tokens of such a
text never split, merge or rename a name in a place where it could be a variable. -/

namespace PriceFormula

namespace Token

/-- Every identifier is one of the given names, unless a parenthesis opens behind it or a number
stands before it. -/
def Named (names : String → Prop) (ts : List Token) : Prop :=
  ∀ before x after, ts = before ++ .identifier x :: after →
    names x ∨ after.head? = some .openParen ∨ ∃ v, before.getLast? = some (.number v)

namespace Named
variable {names : String → Prop} {ts : List Token} {t : Token}

private theorem nil : Named names [] := fun before x after h => by
  cases before <;> nomatch h

private theorem cons (ht : ∀ x, t = .identifier x → names x ∨ ts.head? = some .openParen)
    (h : Named names ts) : Named names (t :: ts) := by
  intro before x after hts
  cases before with
  | nil =>
    obtain ⟨rfl, rfl⟩ := List.cons.inj hts
    exact (ht x rfl).imp_right .inl
  | cons u before =>
    obtain ⟨rfl, rfl⟩ := List.cons.inj hts
    rcases h before x after rfl with hx | hafter | ⟨v, hv⟩
    · exact .inl hx
    · exact .inr (.inl hafter)
    · refine .inr (.inr ⟨v, ?_⟩)
      rw [List.getLast?_cons, hv]
      rfl

private theorem cons_number {v : Float} (h : Named names ts) :
    Named names (.number v :: t :: ts) := by
  intro before x after hts
  cases before with
  | nil => nomatch hts
  | cons u before =>
    obtain ⟨rfl, htail⟩ := List.cons.inj hts
    cases before with
    | nil => exact .inr (.inr ⟨v, rfl⟩)
    | cons u before =>
      obtain ⟨rfl, rfl⟩ := List.cons.inj htail
      rcases h before x after rfl with hx | hafter | ⟨w, hw⟩
      · exact .inl hx
      · exact .inr (.inl hafter)
      · refine .inr (.inr ⟨w, ?_⟩)
        rw [List.getLast?_cons, List.getLast?_cons, hw]
        rfl

theorem of_standsAlone {x : String} (h : Named names ts) (hx : StandsAlone x ts) : names x := by
  obtain ⟨before, after, rfl, hafter, hbefore⟩ := hx
  rcases h before x after rfl with hx | hopen | ⟨v, hv⟩
  · exact hx
  · exact absurd hopen hafter
  · exact absurd hv (hbefore v)

end Named
end Token

/-- A text in which every run that starts like a name is a keyword, one of the given names, or
stands before a parenthesis. -/
inductive Spelled (names : String → Prop) : List Char → Prop
  | nil : Spelled names []
  | char {c : Char} {s : List Char} : Token.isNameStart c = false → Spelled names s →
    Spelled names (c :: s)
  | word {a : Char} {w s : List Char} : Token.isNameStart a = true →
    (∀ c ∈ w, Token.isNamePart c = true) → (∀ c, s.head? = some c → Token.isNamePart c = false) →
    (∀ x, Token.ofWord (a :: w) = .identifier x → names x ∨ s.head? = some '(') →
    Spelled names s → Spelled names (a :: (w ++ s))

namespace Spelled
variable {names : String → Prop} {s : List Char}

private theorem tail {c : Char} (hc : Token.isNameStart c = false) (h : Spelled names (c :: s)) :
    Spelled names s := by
  cases h with
  | char _ h => exact h
  | word ha => rw [hc] at ha; nomatch ha

private theorem drop (h : Spelled names s) (n : Nat)
    (hn : ∀ c ∈ s.take n, Token.isNameStart c = false) : Spelled names (s.drop n) := by
  induction n generalizing s with
  | zero => exact h
  | succ n ih =>
    cases s with
    | nil => exact h
    | cons c s =>
      rw [List.take_succ_cons] at hn
      exact ih (h.tail (hn c List.mem_cons_self)) fun d hd => hn d (List.mem_cons_of_mem c hd)

/-- Wherever such a text is cut, the rest starts with a run of name characters, which may be part
of a word, and goes on with such a text. -/
private theorem exists_run (h : Spelled names s) (n : Nat) :
    ∃ run rest, s.drop n = run ++ rest ∧ (∀ c ∈ run, Token.isNamePart c = true) ∧
      (∀ c, rest.head? = some c → Token.isNamePart c = false) ∧ Spelled names rest := by
  induction h generalizing n with
  | nil => exact ⟨[], [], by simp, nofun, nofun, .nil⟩
  | @char c s hc hs ih =>
    cases n with
    | succ n => exact ih n
    | zero =>
      by_cases hpart : Token.isNamePart c = true
      · obtain ⟨run, rest, hs, hrun, hrest, hspelled⟩ := ih 0
        refine ⟨c :: run, rest, ?_, List.forall_mem_cons.mpr ⟨hpart, hrun⟩, hrest, hspelled⟩
        rw [List.drop_zero] at hs ⊢
        rw [hs, List.cons_append]
      · refine ⟨[], c :: s, rfl, nofun, fun d hd => ?_, .char hc hs⟩
        obtain rfl := Option.some.inj hd
        simpa using hpart
  | @word a w s ha hw hrest hn hs ih =>
    have hword : ∀ c ∈ a :: w, Token.isNamePart c = true :=
      List.forall_mem_cons.mpr ⟨Token.isNamePart_of_isNameStart ha, hw⟩
    by_cases hlen : n ≤ (a :: w).length
    · refine ⟨(a :: w).drop n, s, ?_, fun c hc => hword c (List.mem_of_mem_drop hc), hrest, hs⟩
      rw [← List.cons_append, List.drop_append_of_le_length hlen]
    · obtain ⟨run, rest, hs, h⟩ := ih (n - (a :: w).length)
      refine ⟨run, rest, ?_, h⟩
      rw [← hs, ← List.cons_append, List.drop_append, List.drop_eq_nil_of_le (by omega)]
      rfl

/-- The tokens of such a text are named. -/
theorem named_scan (h : Spelled names s) : Token.Named names (Token.scan s) := by
  induction hlen : s.length using Nat.strongRecOn generalizing s with
  | ind n ih =>
    subst hlen
    cases h with
    | nil => exact .nil
    | @char c s hc hs =>
      cases hfind : Token.find c s with
      | none =>
        rw [Token.scan_of_none hfind]
        split
        · exact ih _ (Nat.lt_succ_self _) hs rfl
        · exact .nil
      | some found =>
        obtain ⟨t, more⟩ := found
        rw [Token.scan_of_found hfind]
        rcases Token.find_of_not_nameStart hc hfind with ⟨d, hscan, rfl⟩ | ⟨hsign, -⟩
        · -- a numeral may end within a word, as in `1.e5x`; the rest of the word follows it directly
          obtain ⟨run, rest, hdrop, hrun, hrest, hspelled⟩ := hs.exists_run more
          have hshort : rest.length < (c :: s).length := by
            have := congrArg List.length hdrop
            rw [List.length_drop, List.length_append] at this
            rw [List.length_cons]
            omega
          have hnamed := ih _ hshort hspelled rfl
          have hstop := (Numeral.scan_stops hscan).2
          rw [List.drop_succ_cons, hdrop] at hstop
          rw [hdrop]
          cases run with
          | nil => exact hnamed.cons nofun
          | cons a run =>
            obtain ⟨ha, hrun⟩ := List.forall_mem_cons.mp hrun
            rw [List.cons_append, Token.scan_word
              (Token.isNameStart_of_not_isDigit ha (hstop a rfl)) hrun hrest]
            exact hnamed.cons_number
        · have hshort : (s.drop more).length < (c :: s).length := by
            rw [List.length_drop, List.length_cons]
            omega
          have hplain : ∀ d ∈ s.take more, Token.isNameStart d = false := fun d hd =>
            (hsign.not_word d (List.mem_cons_of_mem c hd)).1
          exact (ih _ hshort (hs.drop more hplain) rfl).cons fun x hx =>
            absurd hx (hsign.ne_identifier x)
    | @word a w s ha hw hrest hn hs =>
      rw [Token.scan_word ha hw hrest]
      have hshort : s.length < (a :: (w ++ s)).length := by
        rw [List.length_cons, List.length_append]
        omega
      refine (ih _ hshort hs rfl).cons fun x hx => (hn x hx).imp_right fun hopen => ?_
      cases s with
      | nil => nomatch hopen
      | cons c s =>
        obtain rfl := Option.some.inj hopen
        rw [Token.scan_of_found (c := '(') rfl]
        rfl

end Spelled
end PriceFormula
