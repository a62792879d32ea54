import Mathlib.Data.List.Infix
import PriceFormula.Proofs.Expr.Variables
import PriceFormula.Proofs.Expr.Writing

/-! Calls in texts. Where a word stands before a parenthesis, a parsed text calls a function whose
name ends in it. -/

namespace PriceFormula

namespace Numeral

def IsPart (c : Char) : Prop := c.isDigit = true ∨ c ∈ ['.', 'e', 'E', '-', '+']

instance (c : Char) : Decidable (IsPart c) :=
  inferInstanceAs (Decidable (_ ∨ _))

section Parts
variable {s : List Char} {c : Char}

private theorem isDigit_of_mem_take_digitRun (h : c ∈ s.take (digitRun s).length) :
    c.isDigit = true := by
  rw [digitRun, ← List.prefix_iff_eq_take.mp (List.takeWhile_prefix _)] at h
  exact List.mem_takeWhile_imp h

private theorem isPart_of_mem_take_fractionAt (h : c ∈ s.take (fractionAt s).2) : IsPart c := by
  unfold fractionAt at h
  split at h
  · rw [List.take_succ_cons] at h
    rcases List.mem_cons.mp h with rfl | h
    · exact .inr (by decide)
    · exact .inl (isDigit_of_mem_take_digitRun h)
  · rw [List.take_zero] at h
    cases h

private theorem isPart_of_mem_take_signed {tail : List Char} {before : Nat} {sign : Int}
    (hbefore : ∀ d ∈ s.take before, IsPart d) (htail : s.drop before = tail)
    (h : c ∈ s.take (powerOfTen.signed tail before sign).2) : IsPart c := by
  unfold powerOfTen.signed at h
  simp only at h
  split at h
  · rw [List.take_zero] at h
    cases h
  · rw [List.take_add, List.mem_append, htail] at h
    rcases h with h | h
    · exact hbefore c h
    · exact .inl (isDigit_of_mem_take_digitRun h)

private theorem isPart_of_mem_take_powerOfTen (h : c ∈ s.take (powerOfTen s).2) : IsPart c := by
  unfold powerOfTen at h
  split at h
  · split at h
    · rename_i mark rest hmark
      have hpart : IsPart mark := by rcases hmark with rfl | rfl <;> exact .inr (by decide)
      split at h
      · refine isPart_of_mem_take_signed ?_ (by rfl) h
        exact List.forall_mem_cons.mpr ⟨hpart, by simp [IsPart]⟩
      · refine isPart_of_mem_take_signed ?_ (by rfl) h
        exact List.forall_mem_cons.mpr ⟨hpart, by simp [IsPart]⟩
      · refine isPart_of_mem_take_signed ?_ (by rfl) h
        exact List.forall_mem_cons.mpr ⟨hpart, by simp⟩
    · rw [List.take_zero] at h
      cases h
  · rw [List.take_zero] at h
    cases h

private theorem isPart_of_mem_take_scan {d : Decimal} {n : Nat} (hscan : scan s = some (d, n))
    (h : c ∈ s.take n) : IsPart c := by
  rw [scan] at hscan
  simp only at hscan
  split at hscan
  · cases hscan
  · obtain ⟨-, rfl⟩ := Prod.mk.inj (Option.some.inj hscan)
    rw [List.take_add, List.take_add, List.mem_append, List.mem_append] at h
    rcases h with (h | h) | h
    · exact .inl (isDigit_of_mem_take_digitRun h)
    · exact isPart_of_mem_take_fractionAt h
    · exact isPart_of_mem_take_powerOfTen h

end Parts
end Numeral

namespace Token

def CallsKnown (t u : Token) : Prop :=
  ∀ x, t = identifier x → u = openParen → ∃ f : Function, f.name = x.map Char.toLower

private theorem isChain_append_of_ne {ts us : List Token} {t : Token} (ht : t ≠ openParen)
    (hts : ts.IsChain CallsKnown) (hus : (t :: us).IsChain CallsKnown) :
    (ts ++ t :: us).IsChain CallsKnown := by
  refine List.isChain_append.mpr ⟨hts, hus, fun _ _ u hu _ _ hopen => absurd ?_ ht⟩
  obtain rfl := Option.some.inj hu
  exact hopen

private theorem isChain_cons_of_ne {ts : List Token} {t : Token} (ht : ∀ x, t ≠ identifier x)
    (h : ts.IsChain CallsKnown) : (t :: ts).IsChain CallsKnown :=
  List.isChain_cons.mpr ⟨fun _ _ x hx => absurd hx (ht x), h⟩

end Token

namespace Phrase
open Token

private theorem isChain_append_arguments {ts : List Token} {rest : List (List Token)}
    (hts : ts.IsChain CallsKnown)
    (hrest : (rest.flatMap (comma :: ·) ++ [closeParen]).IsChain CallsKnown) :
    (ts ++ (rest.flatMap (comma :: ·) ++ [closeParen])).IsChain CallsKnown := by
  obtain ⟨t, us, hclose, ht⟩ := closed_arguments rest
  rw [hclose] at hrest ⊢
  exact isChain_append_of_ne ht hts hrest

private theorem isChain_arguments {rest : List (List Token)}
    (h : ∀ ts ∈ rest, ts.IsChain CallsKnown) :
    (rest.flatMap (comma :: ·) ++ [closeParen]).IsChain CallsKnown := by
  induction rest with
  | nil => exact List.isChain_singleton _
  | cons ts rest ih =>
    obtain ⟨hts, hrest⟩ := List.forall_mem_cons.mp h
    rw [List.flatMap_cons, List.append_assoc]
    exact isChain_cons_of_ne (by simp) (isChain_append_arguments hts (ih hrest))

private theorem isChain_separated {tss : List (List Token)}
    (h : ∀ ts ∈ tss, ts.IsChain CallsKnown) :
    (separated tss ++ [closeParen]).IsChain CallsKnown := by
  cases tss with
  | nil => exact List.isChain_singleton _
  | cons ts rest =>
    obtain ⟨hts, hrest⟩ := List.forall_mem_cons.mp h
    rw [separated, List.append_assoc]
    exact isChain_append_arguments hts (isChain_arguments hrest)

/-- Whatever is called in a phrase is known if every call fits. -/
theorem isChain_tokens {p : Phrase} (h : p.CallsFit) : p.tokens.IsChain CallsKnown := by
  induction p with
  | number v => rw [tokens]; exact List.isChain_singleton _
  | boolean b => rw [tokens]; exact List.isChain_singleton _
  | var x => rw [tokens]; exact List.isChain_singleton _
  | parens p ih =>
    rw [CallsFit] at h
    rw [tokens]
    exact isChain_cons_of_ne (by simp)
      (isChain_append_of_ne (by simp) (ih h) (List.isChain_singleton _))
  | call name ps ih =>
    rw [CallsFit] at h
    obtain ⟨⟨f, hname, -⟩, hps⟩ := h
    have hseparated : (openParen :: (separated (ps.map fun p => p.tokens) ++
        [closeParen])).IsChain CallsKnown := by
      refine isChain_cons_of_ne (by simp) (isChain_separated fun ts hts => ?_)
      obtain ⟨p, hp, rfl⟩ := List.mem_map.mp hts
      exact ih p hp (hps p hp)
    rw [tokens]
    refine List.isChain_cons.mpr ⟨fun _ _ x hx _ => ⟨f, ?_⟩, hseparated⟩
    obtain rfl := identifier.inj hx
    exact hname
  | signed s p ih =>
    rw [CallsFit] at h
    rw [tokens]
    exact isChain_cons_of_ne (by cases s <;> simp [PrefixSign.token]) (ih h)
  | binary op l r ihl ihr =>
    rw [CallsFit] at h
    rw [tokens]
    exact isChain_append_of_ne (by cases op <;> simp [BinaryOp.token]) (ihl h.1)
      (isChain_cons_of_ne (by cases op <;> simp [BinaryOp.token]) (ihr h.2))

end Phrase

namespace Token

private theorem infix_drop_of_not_mem {a : Char} {w s : List Char} {n : Nat} (ha : a ∉ s.take n)
    (h : a :: w <:+: s) : a :: w <:+: s.drop n := by
  obtain ⟨front, behind, rfl⟩ := h
  have hn : n ≤ front.length := by
    by_contra hlong
    refine ha ?_
    obtain ⟨k, rfl⟩ := Nat.exists_eq_add_of_lt (not_le.mp hlong)
    rw [List.append_assoc, Nat.add_assoc, List.take_append, Nat.add_sub_cancel_left]
    exact List.mem_append_right _ List.mem_cons_self
  rw [List.append_assoc, List.drop_append_of_le_length hn]
  exact ⟨front.drop n, behind, List.append_assoc _ _ _⟩

private theorem infix_of_infix_cons {a c : Char} {w s : List Char} (hne : a ≠ c)
    (h : a :: w <:+: c :: s) :
    a :: w <:+: s := by
  rw [List.infix_cons_iff, List.cons_prefix_cons] at h
  exact h.resolve_left fun hprefix => hne hprefix.1

/-- A word before a parenthesis ends the run of name characters that it lies in, if it does not lie
behind the run. -/
private theorem suffix_of_infix_run {word run rest : List Char}
    (hword : ∀ c ∈ word, isNamePart c = true)
    (hrun : ∀ c ∈ run, isNamePart c = true)
    (hrest : ∀ c, rest.head? = some c → isNamePart c = false)
    (h : word ++ ['('] <:+: run ++ rest) :
    word <:+ run ∧ rest.head? = some '(' ∨ word ++ ['('] <:+: rest := by
  induction run with
  | nil => exact .inr h
  | cons c run ih =>
    rw [List.cons_append, List.infix_cons_iff] at h
    rcases h with ⟨behind, h⟩ | h
    · have htake := congrArg (List.takeWhile isNamePart) h
      rw [List.append_assoc, Text.takeWhile_append_of_stop hword (by rintro d ⟨⟩; decide),
        ← List.cons_append, Text.takeWhile_append_of_stop hrun hrest] at htake
      subst htake
      rw [List.append_assoc] at h
      rw [← List.append_cancel_left h]
      exact .inl ⟨List.suffix_rfl, rfl⟩
    · refine (ih (fun d hd => hrun d (List.mem_cons_of_mem c hd)) h).imp_left ?_
      exact And.imp_left fun hsuffix => hsuffix.trans (List.suffix_cons c run)

private theorem not_mem_take_of_find {a c : Char} {rest : List Char} {t : Token} {more : Nat}
    (hstart : isNameStart a = true) (ha : ¬Numeral.IsPart a) (hc : isNameStart c = false)
    (hfind : find c rest = some (t, more)) : a ∉ rest.take more := by
  intro hmem
  have hmem' : a ∈ c :: rest.take more := List.mem_cons_of_mem c hmem
  rcases find_of_not_nameStart hc hfind with ⟨d, hscan, -⟩ | ⟨hsign, -⟩
  · exact ha (Numeral.isPart_of_mem_take_scan hscan hmem')
  · rw [(hsign.not_word a hmem').1] at hstart
    cases hstart

private theorem whole?_ofSegments_openParen {s : List Char} {ts : List Token} {offset : Nat}
    (hs : s.head? = some '(')
    (h : (TokenList.ofSegments offset (Text.Segment.cut find s)).whole? = some ts) :
    ∃ us, ts = openParen :: us := by
  obtain ⟨behind, rfl⟩ := List.head?_eq_some_iff.mp hs
  have hfound : find '(' behind = some (openParen, 0) := rfl
  rw [Text.Segment.cut_of_found hfound, TokenList.whole?_ofSegments_found] at h
  obtain ⟨us, -, rfl⟩ := Option.map_eq_some_iff.mp h
  exact ⟨us, rfl⟩

private theorem exists_call_of_infix {a : Char} {w s : List Char} {ts : List Token} {offset : Nat}
    (hstart : isNameStart a = true) (ha : ¬Numeral.IsPart a) (hw : ∀ c ∈ w, isNamePart c = true)
    (h : a :: w ++ ['('] <:+: s)
    (hwhole : (TokenList.ofSegments offset (Text.Segment.cut find s)).whole? = some ts) :
    ∃ word, a :: w <:+ word ∧ [ofWord word, openParen] <:+: ts := by
  have hword : ∀ c ∈ a :: w, isNamePart c = true :=
    List.forall_mem_cons.mpr ⟨isNamePart_of_isNameStart hstart, hw⟩
  -- the text is gone through as it is cut into tokens; the word may lie in the token at hand, which
  -- is then a word that it ends, or behind it
  induction s using Text.Segment.induct find generalizing offset ts with
  | nil => cases List.infix_nil.mp h
  | found c rest t more hfind ih =>
    rw [Text.Segment.cut_of_found hfind, TokenList.whole?_ofSegments_found] at hwhole
    obtain ⟨us, hus, rfl⟩ := Option.map_eq_some_iff.mp hwhole
    have hlater (hinside : a :: w ++ ['('] <:+: rest.drop more) :
        ∃ word, a :: w <:+ word ∧ [ofWord word, openParen] <:+: t :: us := by
      obtain ⟨word, hsuffix, hcall⟩ := ih hinside hus
      exact ⟨word, hsuffix, hcall.trans (List.suffix_cons t us).isInfix⟩
    cases hc : isNameStart c with
    | true =>
      rw [find_of_nameStart hc] at hfind
      obtain ⟨rfl, rfl⟩ := Prod.mk.inj (Option.some.inj hfind)
      have hrun : ∀ d ∈ c :: rest.takeWhile isNamePart, isNamePart d = true :=
        List.forall_mem_cons.mpr ⟨isNamePart_of_isNameStart hc, fun d => List.mem_takeWhile_imp⟩
      have hsplit : c :: rest = (c :: rest.takeWhile isNamePart) ++
          rest.drop (rest.takeWhile isNamePart).length := by
        rw [Text.drop_length_takeWhile, List.cons_append, List.takeWhile_append_dropWhile]
      rw [hsplit] at h
      rcases suffix_of_infix_run hword hrun (fun d => Text.head?_drop_takeWhile) h with
        ⟨hsuffix, hopen⟩ | hinside
      · obtain ⟨us, rfl⟩ := whole?_ofSegments_openParen hopen hus
        exact ⟨_, hsuffix, [], us, rfl⟩
      · exact hlater hinside
    | false =>
      have hne : a ≠ c := by
        rintro rfl
        rw [hstart] at hc
        cases hc
      have hnot := not_mem_take_of_find hstart ha hc hfind
      exact hlater (infix_drop_of_not_mem hnot (infix_of_infix_cons hne h))
  | plain c rest hfind ih =>
    have hne : a ≠ c := by
      rintro rfl
      rw [find_of_nameStart hstart] at hfind
      cases hfind
    rw [Text.Segment.cut_of_none hfind] at hwhole
    by_cases hblank : Text.isBlank c = true
    · rw [TokenList.whole?_ofSegments_blank _ hblank] at hwhole
      exact ih (infix_of_infix_cons hne h) hwhole
    · rw [TokenList.ofSegments, if_neg hblank] at hwhole
      cases hwhole

private theorem ofWord_eq_identifier {word : List Char} (h : 5 < word.length) :
    ofWord word = identifier (String.ofList word) := by
  have hlength {keyword : List Char} (hkeyword : keyword.length ≤ 5) :
      word.map Char.toLower ≠ keyword := by
    rintro rfl
    rw [List.length_map] at hkeyword
    omega
  unfold ofWord
  simp only
  repeat' split
  all_goals first
    | rfl
    | rename_i hkeyword
      exact absurd hkeyword (hlength (by decide))

end Token

/-- Where a word stands before a parenthesis in a parsed text, the name of a function ends in it. -/
theorem Expr.exists_function_of_parse {text : String} {e : Expr} (h : parse text = .ok e) {a : Char}
    {w : List Char} (hstart : Token.isNameStart a = true) (ha : ¬Numeral.IsPart a)
    (hw : ∀ c ∈ w, Token.isNamePart c = true) (hlength : 5 ≤ w.length)
    (hcall : a :: w ++ ['('] <:+: text.toList) :
    ∃ f : Function, (a :: w).map Char.toLower <:+ f.name.toList := by
  obtain ⟨p, hwhole, -, hallowed⟩ := parse_eq_ok.mp h
  obtain ⟨word, hsuffix, front, behind, htokens⟩ :=
    Token.exists_call_of_infix hstart ha hw hcall hwhole
  have hknown := Phrase.isChain_tokens hallowed.callsFit
  have hlong : 5 < word.length := (Nat.succ_le_succ hlength).trans hsuffix.length_le
  rw [← htokens, Token.ofWord_eq_identifier hlong, List.append_assoc, List.isChain_append] at hknown
  obtain ⟨f, hf⟩ := (List.isChain_cons_cons.mp hknown.2.1).1 _ rfl rfl
  refine ⟨f, ?_⟩
  rw [hf, String.toList_map, String.toList_ofList]
  exact hsuffix.map _

end PriceFormula
