import PriceFormula.Expr.Token
import PriceFormula.Proofs.Text.Run

namespace PriceFormula

namespace Numeral

private theorem fractionAt_stops {s : List Char} (hs : ∀ c, s.head? = some c → c.isDigit = false)
    {c : Char}
    (hc : (s.drop (fractionAt s).2).head? = some c) : c.isDigit = false := by
  unfold fractionAt at hc
  split at hc
  · exact Text.head?_drop_takeWhile hc
  · exact hs c hc

private theorem powerOfTen_signed_stops {s tail : List Char} {before : Nat} {sign : Int}
    (hs : ∀ c, s.head? = some c → c.isDigit = false) (htail : s.drop before = tail) {c : Char}
    (hc : (s.drop (powerOfTen.signed tail before sign).2).head? = some c) : c.isDigit = false := by
  unfold powerOfTen.signed at hc
  simp only at hc
  split at hc
  · exact hs c hc
  · rw [← List.drop_drop, htail] at hc
    exact Text.head?_drop_takeWhile hc

private theorem powerOfTen_stops {s : List Char} (hs : ∀ c, s.head? = some c → c.isDigit = false)
    {c : Char}
    (hc : (s.drop (powerOfTen s).2).head? = some c) : c.isDigit = false := by
  unfold powerOfTen at hc
  split at hc
  · split at hc
    · split at hc
      all_goals exact powerOfTen_signed_stops hs (by rfl) hc
    · exact hs c hc
  · exact hs c hc

/-- A numeral is not empty and takes in every digit that could belong to it. -/
theorem scan_stops {s : List Char} {d : Decimal} {n : Nat} (h : scan s = some (d, n)) :
    0 < n ∧ ∀ c, (s.drop n).head? = some c → c.isDigit = false := by
  rw [scan] at h
  simp only at h
  split at h
  · nomatch h
  · rename_i hne
    obtain ⟨-, rfl⟩ := Prod.mk.inj (Option.some.inj h)
    refine ⟨?_, fun c hc => ?_⟩
    · by_cases hwhole : digitRun s = []
      · have hfraction : (fractionAt (s.drop (digitRun s).length)).2 ≠ 0 := by
          intro hzero
          refine hne ⟨hwhole, ?_⟩
          unfold fractionAt at hzero ⊢
          split at hzero
          · nomatch hzero
          · rfl
        omega
      · have := List.length_pos_iff.mpr hwhole
        omega
    · have hwhole : ∀ c, (s.drop (digitRun s).length).head? = some c → c.isDigit = false :=
        fun c hc => Text.head?_drop_takeWhile hc
      rw [← List.drop_drop, ← List.drop_drop] at hc
      exact powerOfTen_stops (fun c hc => fractionAt_stops hwhole hc) hc

end Numeral

namespace TokenList

def among : List (Text.Segment Token) → List Token
  | [] => []
  | .found t _ :: rest => t :: among rest
  | .plain c :: rest => if Text.isBlank c then among rest else []

private theorem map_token_ofSegments (offset : Nat) (segments : List (Text.Segment Token)) :
    (ofSegments offset segments).tokens.map Located.token = among segments := by
  induction segments generalizing offset with
  | nil => rfl
  | cons segment rest ih =>
    cases segment with
    | found t text => rw [ofSegments, among, List.map_cons, ih]
    | plain c =>
      rw [ofSegments, among]
      split
      · exact ih _
      · rfl

end TokenList

namespace Token

def scan (s : List Char) : List Token := TokenList.among (Text.Segment.cut find s)

theorem map_token_ofText (s : List Char) :
    (TokenList.ofText s).tokens.map Located.token = scan s :=
  TokenList.map_token_ofSegments 0 _

theorem scan_of_found {c : Char} {rest : List Char} {t : Token} {more : Nat}
    (h : find c rest = some (t, more)) : scan (c :: rest) = t :: scan (rest.drop more) := by
  rw [scan, Text.Segment.cut_of_found h]
  rfl

theorem scan_of_none {c : Char} {rest : List Char} (h : find c rest = none) :
    scan (c :: rest) = if Text.isBlank c then scan rest else [] := by
  rw [scan, Text.Segment.cut_of_none h]
  rfl

theorem isNamePart_of_isNameStart {c : Char} (h : isNameStart c = true) : isNamePart c = true := by
  rw [isNameStart] at h
  unfold isNamePart Char.isAlphanum
  simp only [Bool.or_eq_true] at h ⊢
  exact h.imp_left .inl

theorem isNameStart_of_not_isNamePart {c : Char} (h : isNamePart c = false) :
    isNameStart c = false := by
  cases hc : isNameStart c with
  | false => rfl
  | true => rw [isNamePart_of_isNameStart hc] at h; nomatch h

theorem isNameStart_of_not_isDigit {c : Char} (h : isNamePart c = true) (hc : c.isDigit = false) :
    isNameStart c = true := by
  unfold isNamePart Char.isAlphanum at h
  rw [hc, Bool.or_false] at h
  exact h

theorem isNameStart_eq_false_of_bounds {c : Char}
    (h : c.toNat < 65 ∨ 90 < c.toNat ∧ c.toNat < 95 ∨ 122 < c.toNat) :
    isNameStart c = false := by
  have hunderscore : c ≠ '_' := by
    rintro rfl
    simp at h
  have hletter : c.isAlpha = (decide ('A'.val ≤ c.val ∧ c.val ≤ 'Z'.val) ||
      (decide ('a'.val ≤ c.val) && decide (c.val ≤ 'z'.val))) := rfl
  rw [← Bool.not_eq_true, isNameStart, hletter]
  simp only [hunderscore, decide_false, Bool.or_false, Bool.or_eq_true, Bool.and_eq_true,
    decide_eq_true_eq, UInt32.le_iff_toNat_le]
  change ¬((65 ≤ c.toNat ∧ c.toNat ≤ 90) ∨ (97 ≤ c.toNat ∧ c.toNat ≤ 122))
  omega

theorem isNameStart_eq_false_of_isDigit {c : Char} (h : c.isDigit = true) :
    isNameStart c = false := by
  refine isNameStart_eq_false_of_bounds (.inl ?_)
  simp only [Char.isDigit, Bool.and_eq_true, decide_eq_true_eq, UInt32.le_iff_toNat_le] at h
  have : c.toNat ≤ 57 := h.2
  omega

/-- An identifier is the word as it stands. -/
theorem eq_of_ofWord_eq_identifier {w : List Char} {x : String} (h : ofWord w = identifier x) :
    x = String.ofList w := by
  unfold ofWord at h
  simp only at h
  repeat' split at h
  all_goals cases h
  rfl

private def Signs.spellings : Signs → List (Token × List Char)
  | one t => [(t, [])]
  | longer t next more => (t, []) :: more.spellings.map fun sign => (sign.1, next :: sign.2)

private theorem Signs.find_mem_spellings (signs : Signs) (rest : List Char) :
    ((signs.find rest).1, rest.take (signs.find rest).2) ∈ signs.spellings ∧
      (signs.find rest).2 ≤ rest.length := by
  induction signs generalizing rest with
  | one t => exact ⟨List.mem_singleton_self _, Nat.zero_le _⟩
  | longer t next more ih =>
    rw [Signs.find, spellings]
    split
    next hnext =>
      obtain ⟨tail, rfl⟩ := List.head?_eq_some_iff.mp hnext
      obtain ⟨hmem, hlength⟩ := ih tail
      exact ⟨List.mem_cons_of_mem _ (List.mem_map_of_mem hmem), Nat.succ_le_succ hlength⟩
    · exact ⟨List.mem_cons_self, Nat.zero_le _⟩

/-- A sign is read alike at the end of a text and before a space, and has nothing of a word. -/
structure IsSign (t : Token) (c : Char) (w : List Char) : Prop where
  ne_number : ∀ v, t ≠ number v
  ne_identifier : ∀ x, t ≠ identifier x
  not_word : ∀ d ∈ c :: w, isNameStart d = false ∧ d.isDigit = false ∧ d ≠ '.'
  not_blank : Text.isBlank c = false
  find_end : find c w = some (t, w.length)
  find_space : ∀ s, find c (w ++ ' ' :: s) = some (t, w.length)

private theorem isSign_of_signs? {c : Char} {signs : Signs} (h : signs? c = some signs) :
    ∀ sign ∈ signs.spellings, IsSign sign.1 c sign.2 := by
  unfold signs? at h
  split at h
  all_goals cases h
  all_goals
    simp only [Signs.spellings, List.map_cons, List.map_nil, List.forall_mem_cons]
    repeat' apply And.intro
  all_goals first
    | exact List.forall_mem_nil _
    | exact ⟨fun v => Token.noConfusion, fun x => Token.noConfusion, by simp [isNameStart],
        by decide, rfl, fun s => rfl⟩

private theorem isSign_of_doubled? {c : Char} {signs : Signs} (h : doubled? c = some signs) :
    ∀ sign ∈ signs.spellings, IsSign sign.1 c (c :: sign.2) := by
  unfold doubled? at h
  split at h
  all_goals cases h
  all_goals
    simp only [Signs.spellings, List.map_cons, List.map_nil, List.forall_mem_cons]
    repeat' apply And.intro
  all_goals first
    | exact List.forall_mem_nil _
    | exact ⟨fun v => Token.noConfusion, fun x => Token.noConfusion, by simp [isNameStart],
        by decide, rfl, fun s => rfl⟩

/-- A token is a word, or a sign that was found. -/
theorem find_eq_findWord_or (c : Char) (rest : List Char) :
    find c rest = findWord c rest ∨ ∃ t more, find c rest = some (t, more) ∧
      IsSign t c (rest.take more) ∧ more ≤ rest.length := by
  rw [find]
  split
  next signs hsigns =>
    obtain ⟨hmem, hlength⟩ := signs.find_mem_spellings rest
    exact .inr ⟨_, _, rfl, isSign_of_signs? hsigns _ hmem, hlength⟩
  next signs _ hsigns =>
    split
    next hnext =>
      obtain ⟨tail, rfl⟩ := List.head?_eq_some_iff.mp hnext
      obtain ⟨hmem, hlength⟩ := signs.find_mem_spellings tail
      exact .inr ⟨_, _, rfl, isSign_of_doubled? hsigns _ hmem, Nat.succ_le_succ hlength⟩
    · exact .inl rfl
  · exact .inl rfl

theorem find_of_nameStart {c : Char} (hc : isNameStart c = true) (rest : List Char) :
    find c rest =
      some (ofWord (c :: rest.takeWhile isNamePart), (rest.takeWhile isNamePart).length) := by
  rcases find_eq_findWord_or c rest with hword | ⟨t, more, -, hsign, -⟩
  · rw [hword, findWord, if_pos hc]
  · rw [(hsign.not_word c List.mem_cons_self).1] at hc
    cases hc

/-- A character that starts no name starts a numeral or a sign. -/
theorem find_of_not_nameStart {c : Char} (hc : isNameStart c = false) {rest : List Char}
    {t : Token} {more : Nat} (h : find c rest = some (t, more)) :
    (∃ d, Numeral.scan (c :: rest) = some (d, more + 1) ∧ t = number d.toFloat) ∨
      IsSign t c (rest.take more) ∧ more ≤ rest.length := by
  rcases find_eq_findWord_or c rest with hword | ⟨t', more', hfind, hsign⟩
  · rw [hword, findWord, hc] at h
    obtain ⟨⟨d, n⟩, hscan, hd⟩ := Option.map_eq_some_iff.mp h
    obtain ⟨rfl, rfl⟩ := Prod.mk.inj hd
    exact .inl ⟨d, by rw [hscan, Nat.sub_add_cancel (Numeral.scan_stops hscan).1], rfl⟩
  · obtain ⟨rfl, rfl⟩ := Prod.mk.inj (Option.some.inj (hfind.symm.trans h))
    exact .inr hsign

/-- A word is one token, however the text goes on behind it. -/
theorem scan_word {a : Char} {w s : List Char} (ha : isNameStart a = true)
    (hw : ∀ c ∈ w, isNamePart c = true) (hs : ∀ c, s.head? = some c → isNamePart c = false) :
    scan (a :: (w ++ s)) = ofWord (a :: w) :: scan s := by
  have htake : (w ++ s).takeWhile isNamePart = w := Text.takeWhile_append_of_stop hw hs
  rw [scan_of_found (find_of_nameStart ha _), htake, List.drop_left]

end Token
end PriceFormula
