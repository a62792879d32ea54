import PriceFormula.Json.Reader
import PriceFormula.Json.Writer
import PriceFormula.Proofs.Except

namespace PriceFormula.Json

namespace Reader

private theorem characters_skip (keep : Bool) (n : Nat) (s : List Char) :
    characters keep n s = characters keep 0 (s.drop n) := by
  induction n generalizing s with
  | zero => rfl
  | succ n ih =>
    cases s with
    | nil => rfl
    | cons c s => rw [List.drop_succ_cons, ← ih, characters]

private def consCharacter (c : Char) (r : List Char × List Char) : List Char × List Char :=
  (c :: r.1, r.2)

private theorem characters_escape {keep : Bool} {c : Char} {n : Nat} {s : List Char}
    (h : escape keep s = .ok (c, n)) :
    characters keep 0 ('\\' :: s) = (characters keep 0 (s.drop n)).map (consCharacter c) := by
  rw [characters, if_neg (by decide), if_pos rfl, h, ok_bind]
  simp only
  rw [characters_skip]
  cases characters keep 0 (s.drop n) <;> rfl

private theorem characters_letter {keep : Bool} {c d : Char} {s : List Char}
    (h : escape keep (d :: s) = .ok (c, 1)) :
    characters keep 0 (['\\', d] ++ s) = (characters keep 0 s).map (consCharacter c) :=
  characters_escape h

private theorem characters_plain {keep : Bool} {c : Char} (s : List Char) (hquote : c ≠ '"')
    (hbackslash : c ≠ '\\') (hlow : 0x20 ≤ c.toNat) :
    characters keep 0 (c :: s) = (characters keep 0 s).map (consCharacter c) := by
  rw [characters, if_neg hquote, if_neg hbackslash, if_neg (by omega)]
  cases characters keep 0 s <;> rfl

/-- Four digits stand for a control character. -/
theorem hexQuad_hexText {n : Nat} (h : n < 0x20) (s : List Char) :
    hexQuad (Text.hexText 4 n ++ s) = .ok n := by
  have hquad : ∀ n : Fin 0x20, (Text.hexText 4 n).length = 4 ∧
      (Text.hexText 4 n).all (fun c => (Text.hexDigit? c).isSome) ∧
      Text.hexValue (Text.hexText 4 n) = n := by
    decide
  obtain ⟨hlength, hdigits, hvalue⟩ := hquad ⟨n, h⟩
  have htake : (Text.hexText 4 n ++ s).take 4 = Text.hexText 4 n := List.take_left' hlength
  rw [hexQuad]
  simp only [htake]
  rw [if_pos ⟨hlength, hdigits⟩]
  exact congrArg Except.ok hvalue

private theorem escape_hexText {n : Nat} (h : n < 0x20) (keep : Bool) (s : List Char) :
    escape keep ('u' :: Text.hexText 4 n ++ s) = .ok (Char.ofNat n, 5) := by
  change (hexQuad (Text.hexText 4 n ++ s) >>= _) = _
  rw [hexQuad_hexText h, ok_bind]
  cases keep with
  | false => rfl
  | true =>
    have htrailing : isTrailing n = false := by
      rw [isTrailing]
      simp
      omega
    have hleading : isLeading n = false := by
      rw [isLeading]
      simp
      omega
    simp [htrailing, hleading]

private theorem characters_writtenChar (keep : Bool) (c : Char) (s : List Char) :
    characters keep 0 (writtenChar c ++ s) =
      (characters keep 0 s).map (consCharacter c) := by
  rw [writtenChar]
  split
  · rename_i h
    rcases h with rfl | rfl
    · exact characters_letter rfl
    · exact characters_letter rfl
  split
  · subst_vars
    exact characters_letter rfl
  split
  · subst_vars
    exact characters_letter rfl
  split
  · subst_vars
    exact characters_letter rfl
  split
  · subst_vars
    exact characters_letter rfl
  split
  · subst_vars
    exact characters_letter rfl
  split
  · rename_i hlow
    have hescape := characters_escape (escape_hexText hlow keep s)
    rw [Char.ofNat_toNat] at hescape
    have hlength : (Text.hexText 4 c.toNat).length = 4 := by
      have : ∀ n : Fin 0x20, (Text.hexText 4 n).length = 4 := by decide
      exact this ⟨c.toNat, hlow⟩
    rwa [List.cons_append, List.drop_succ_cons, List.drop_left' hlength] at hescape
  · rename_i hspecial _ _ _ _ _ hlow
    rw [not_or] at hspecial
    exact characters_plain s hspecial.1 hspecial.2 (Nat.le_of_not_lt hlow)

private theorem characters_written (keep : Bool) (cs s : List Char) :
    characters keep 0 (cs.flatMap writtenChar ++ '"' :: s) = .ok (cs, s) := by
  induction cs with
  | nil => rw [List.flatMap_nil, List.nil_append, characters, if_pos rfl]
  | cons c cs ih =>
    rw [List.flatMap_cons, List.append_assoc, characters_writtenChar, ih]
    rfl

/-- A written string reads back behind its opening quote. -/
theorem stringTail_written (keep : Bool) (text : String) (s : List Char) :
    stringTail keep (text.toList.flatMap writtenChar ++ '"' :: s) = .ok (text, s) := by
  rw [stringTail, characters_written, ok_bind]
  simp only [String.ofList_toList]

end Reader

end PriceFormula.Json
