import Mathlib.Data.List.Forall2
import Mathlib.Data.List.TakeWhile
import PriceFormula.Proofs.Expr.Grammar
import PriceFormula.Proofs.Expr.Scan
import PriceFormula.Proofs.Json.Numbers
import PriceFormula.Proofs.Text.Rewriting

/-! Writing tokens. Every token that can be read can be written on its own, and tokens that are
written one after another with single spaces between them are read back. -/

namespace PriceFormula

namespace Numeral

theorem fractionAt_point (tail : List Char) :
    fractionAt ('.' :: tail) = (digitRun tail, (digitRun tail).length + 1) := rfl

private theorem length_fractionAt_le (s : List Char) : (fractionAt s).2 ≤ s.length := by
  unfold fractionAt
  split
  · exact Nat.succ_le_succ (List.takeWhile_prefix _).length_le
  · exact Nat.zero_le _

theorem fractionAt_of_ne {s : List Char} (h : s.head? ≠ some '.') : fractionAt s = ([], 0) := by
  unfold fractionAt
  split
  · exact absurd rfl h
  · rfl

theorem powerOfTen_signed {mark : Char} (h : mark = 'e' ∨ mark = 'E') (tail : List Char) :
    powerOfTen (mark :: '-' :: tail) = powerOfTen.signed tail 2 (-1) ∧
      powerOfTen (mark :: '+' :: tail) = powerOfTen.signed tail 2 1 :=
  ⟨if_pos h, if_pos h⟩

theorem powerOfTen_unsigned {mark : Char} (h : mark = 'e' ∨ mark = 'E') {rest : List Char}
    (hminus : rest.head? ≠ some '-') (hplus : rest.head? ≠ some '+') :
    powerOfTen (mark :: rest) = powerOfTen.signed rest 1 1 := by
  refine (if_pos h).trans ?_
  split
  · exact absurd rfl hminus
  · exact absurd rfl hplus
  · rfl

theorem powerOfTen_of_ne {s : List Char} (hlower : s.head? ≠ some 'e')
    (hupper : s.head? ≠ some 'E') : powerOfTen s = (0, 0) := by
  cases s with
  | nil => rfl
  | cons c rest =>
    refine if_neg fun h => ?_
    rcases h with rfl | rfl
    · exact hlower rfl
    · exact hupper rfl

/-! What stands behind a space does not change what is read in front of it. -/

section Apart
variable {w s : List Char} (hs : ∀ c, s.head? = some c → c = ' ')
include hs

private theorem head?_append_ne {c : Char} (hc : c ≠ ' ') (hw : w.head? ≠ some c) :
    (w ++ s).head? ≠ some c := by
  cases w with
  | nil => exact fun h => hc (hs c h)
  | cons d w => exact hw

private theorem digitRun_append : digitRun (w ++ s) = digitRun w := by
  have hstop : s.takeWhile Char.isDigit = [] := by
    cases s with
    | nil => rfl
    | cons c s =>
      obtain rfl := hs c rfl
      rfl
  rw [digitRun, digitRun, List.takeWhile_append]
  split
  · rename_i hall
    rw [hstop, List.append_nil]
    exact ((List.takeWhile_prefix _).eq_of_length hall).symm
  · rfl

private theorem fractionAt_append : fractionAt (w ++ s) = fractionAt w := by
  by_cases hpoint : w.head? = some '.'
  · obtain ⟨tail, rfl⟩ := List.head?_eq_some_iff.mp hpoint
    rw [List.cons_append, fractionAt_point, fractionAt_point, digitRun_append hs]
  · rw [fractionAt_of_ne hpoint, fractionAt_of_ne (head?_append_ne hs (by decide) hpoint)]

private theorem powerOfTen_signed_append (before : Nat) (sign : Int) :
    powerOfTen.signed (w ++ s) before sign = powerOfTen.signed w before sign := by
  rw [powerOfTen.signed, digitRun_append hs, ← powerOfTen.signed]

private theorem powerOfTen_append : powerOfTen (w ++ s) = powerOfTen w := by
  by_cases hmark : w.head? = some 'e' ∨ w.head? = some 'E'
  · obtain ⟨mark, rest, rfl⟩ : ∃ mark rest, w = mark :: rest :=
      List.exists_cons_of_ne_nil (by rintro rfl; simp at hmark)
    replace hmark : mark = 'e' ∨ mark = 'E' := by simpa using hmark
    rw [List.cons_append]
    by_cases hminus : rest.head? = some '-'
    · obtain ⟨tail, rfl⟩ := List.head?_eq_some_iff.mp hminus
      rw [List.cons_append, (powerOfTen_signed hmark _).1, (powerOfTen_signed hmark _).1,
        powerOfTen_signed_append hs]
    by_cases hplus : rest.head? = some '+'
    · obtain ⟨tail, rfl⟩ := List.head?_eq_some_iff.mp hplus
      rw [List.cons_append, (powerOfTen_signed hmark _).2, (powerOfTen_signed hmark _).2,
        powerOfTen_signed_append hs]
    rw [powerOfTen_unsigned hmark hminus hplus,
      powerOfTen_unsigned hmark (head?_append_ne hs (by decide) hminus)
        (head?_append_ne hs (by decide) hplus), powerOfTen_signed_append hs]
  · rw [not_or] at hmark
    rw [powerOfTen_of_ne hmark.1 hmark.2, powerOfTen_of_ne (head?_append_ne hs (by decide) hmark.1)
      (head?_append_ne hs (by decide) hmark.2)]

private theorem scan_append : scan (w ++ s) = scan w := by
  have hwhole : (digitRun w).length ≤ w.length := (List.takeWhile_prefix _).length_le
  have hmantissa :
      (digitRun w).length + (fractionAt (w.drop (digitRun w).length)).2 ≤ w.length := by
    have := length_fractionAt_le (w.drop (digitRun w).length)
    rw [List.length_drop] at this
    omega
  rw [scan, scan, digitRun_append hs]
  simp only [List.drop_append_of_le_length hwhole, fractionAt_append hs]
  rw [List.drop_append_of_le_length hmantissa, powerOfTen_append hs]

end Apart

/-- A numeral starts with a digit or the point. -/
theorem scan_eq_none {c : Char} (hdigit : c.isDigit = false) (hpoint : c ≠ '.') (rest : List Char) :
    scan (c :: rest) = none := by
  have hwhole : digitRun (c :: rest) = [] := List.takeWhile_cons_of_neg (by simp [hdigit])
  have hfraction : fractionAt (c :: rest) = ([], 0) :=
    fractionAt_of_ne fun h => hpoint (Option.some.inj h)
  rw [scan]
  simp [hwhole, hfraction]

private theorem powerOfTen_powerText (power : Option Int) :
    powerOfTen (Json.NumberParts.powerText power) =
      (power.getD 0, (Json.NumberParts.powerText power).length) := by
  cases power with
  | none => rfl
  | some e =>
    have hdigits : digitRun (Nat.toDigits 10 e.natAbs) = Nat.toDigits 10 e.natAbs :=
      List.takeWhile_eq_self_iff.mpr Json.isDigit_toDigits
    have hread (before : Nat) (sign : Int) :
        powerOfTen.signed (Nat.toDigits 10 e.natAbs) before sign =
          (sign * e.natAbs, before + (Nat.toDigits 10 e.natAbs).length) := by
      rw [powerOfTen.signed, hdigits, if_neg Nat.toDigits_ne_nil, Nat.ofDigitChars_ten_toDigits]
    obtain ⟨hminus, hplus⟩ := powerOfTen_signed (.inl rfl) (Nat.toDigits 10 e.natAbs)
    rw [Json.NumberParts.powerText, Option.getD_some, List.length_cons, List.length_cons]
    by_cases he : e < 0
    · rw [if_pos he, hminus, hread]
      exact Prod.ext (by dsimp only; omega) (by dsimp only; omega)
    · rw [if_neg he, hplus, hread]
      exact Prod.ext (by dsimp only; omega) (by dsimp only; omega)

/-- A written number is one numeral. -/
theorem scan_text {p : Json.NumberParts} (hp : p.WellFormed) :
    scan p.text = some (p.decimal, p.text.length) := by
  have hend : Json.Delimited [] := nofun
  have hwhole : digitRun p.text = p.whole := by
    refine Text.takeWhile_append_of_stop hp.whole_digits fun c hc => ?_
    exact Json.Reader.stops_fraction hend p.fraction p.power (by rwa [List.append_nil])
  have hfraction : fractionAt (Json.NumberParts.fractionText p.fraction ++
      Json.NumberParts.powerText p.power) =
        (p.fraction.getD [], (Json.NumberParts.fractionText p.fraction).length) := by
    have hstop (c : Char) (hc : (Json.NumberParts.powerText p.power).head? = some c) :
        c.isDigit = false ∧ c ≠ '.' :=
      Json.Reader.stops_power hend p.power (by rwa [List.append_nil])
    cases hcase : p.fraction with
    | none => exact fractionAt_of_ne fun h => (hstop _ h).2 rfl
    | some digits =>
      have hrun : digitRun (digits ++ Json.NumberParts.powerText p.power) = digits :=
        Text.takeWhile_append_of_stop (hp.fraction_digits digits hcase) fun c hc => (hstop c hc).1
      rw [Json.NumberParts.fractionText, List.cons_append, fractionAt_point, hrun]
      rfl
  have hlength : p.text.length = p.whole.length +
      (Json.NumberParts.fractionText p.fraction).length +
        (Json.NumberParts.powerText p.power).length := by
    rw [Json.NumberParts.text, List.length_append, List.length_append, Nat.add_assoc]
  rw [scan]
  simp only [hwhole]
  rw [if_neg fun h => hp.whole_ne h.1, hlength, Json.NumberParts.text, List.drop_left, hfraction]
  simp only
  rw [← List.drop_drop, List.drop_left, List.drop_left, powerOfTen_powerText]
  rfl

end Numeral

theorem TokenList.exists_found_of_mem_among {segments : List (Text.Segment Token)} {t : Token}
    (h : t ∈ among segments) : ∃ text, .found t text ∈ segments := by
  induction segments with
  | nil => cases h
  | cons segment rest ih =>
    cases segment with
    | found t' text =>
      rcases List.mem_cons.mp h with rfl | h
      · exact ⟨text, List.mem_cons_self⟩
      · obtain ⟨text', hfound⟩ := ih h
        exact ⟨text', List.mem_cons_of_mem _ hfound⟩
    | plain c =>
      rw [among] at h
      split at h
      · obtain ⟨text, hfound⟩ := ih h
        exact ⟨text, List.mem_cons_of_mem _ hfound⟩
      · cases h

namespace Token

def WrittenAs (t : Token) : List Char → Prop
  | [] => False
  | c :: rest => find c rest = some (t, rest.length)

instance (t : Token) (w : List Char) : Decidable (t.WrittenAs w) :=
  match w with
  | [] => inferInstanceAs (Decidable False)
  | c :: rest => inferInstanceAs (Decidable (find c rest = some (t, rest.length)))

/-- Whether the token is always written in the same way, up to the case of letters: a keyword or a
sign. -/
def isWord : Token → Bool
  | number _ | identifier _ => false
  | _ => true

/-- Keywords and signs read as themselves. -/
theorem writtenAs_text {t : Token} (h : t.isWord = true) : t.WrittenAs t.text.toList := by
  cases t with
  | number v => cases h
  | identifier x => cases h
  | boolean b => cases b <;> decide +kernel
  | _ => decide +kernel

/-- The signs of three keywords. -/
example : and.WrittenAs ['&', '&'] ∧ or.WrittenAs ['|', '|'] ∧ not.WrittenAs ['!'] := by
  decide

private theorem find_of_numeral {c : Char} {rest : List Char} {d : Decimal} {n : Nat}
    (h : Numeral.scan (c :: rest) = some (d, n)) :
    find c rest = some (number d.toFloat, n - 1) := by
  have hstart : c.isDigit = true ∨ c = '.' := by
    by_contra hno
    rw [not_or, Bool.not_eq_true] at hno
    rw [Numeral.scan_eq_none hno.1 hno.2] at h
    nomatch h
  have hname : isNameStart c = false := by
    rcases hstart with hdigit | rfl
    · exact isNameStart_eq_false_of_isDigit hdigit
    · decide
  rcases find_eq_findWord_or c rest with hword | ⟨t, more, -, hsign, -⟩
  · rw [hword, findWord, hname, if_neg Bool.false_ne_true, h]
    rfl
  · obtain ⟨-, hdigit, hpoint⟩ := hsign.not_word c List.mem_cons_self
    rcases hstart with h | h
    · rw [h] at hdigit
      cases hdigit
    · exact absurd h hpoint

theorem writtenAs_number {w : List Char} {d : Decimal} (h : Numeral.scan w = some (d, w.length)) :
    (number d.toFloat).WrittenAs w := by
  cases w with
  | nil => nomatch h
  | cons c rest => exact find_of_numeral h

/-- A space behind a token does not change how it reads. -/
theorem find_append {c : Char} {rest s : List Char} {t : Token}
    (hs : ∀ c, s.head? = some c → c = ' ') (h : find c rest = some (t, rest.length)) :
    find c (rest ++ s) = some (t, rest.length) := by
  cases hc : isNameStart c with
  | true =>
    rw [find_of_nameStart hc] at h
    obtain ⟨ht, hlength⟩ := Prod.mk.inj (Option.some.inj h)
    have hall : rest.takeWhile isNamePart = rest := (List.takeWhile_prefix _).eq_of_length hlength
    have hmore : (rest ++ s).takeWhile isNamePart = rest := by
      refine Text.takeWhile_append_of_stop (fun d hd => ?_) fun d hd => ?_
      · exact List.takeWhile_eq_self_iff.mp hall d hd
      · rw [hs d hd]
        decide
    rw [find_of_nameStart hc, hmore, ← ht, hall]
  | false =>
    rcases find_of_not_nameStart hc h with ⟨d, hscan, rfl⟩ | ⟨hsign, -⟩
    · have hbefore : Numeral.scan (c :: (rest ++ s)) = some (d, rest.length + 1) := by
        rwa [← List.cons_append, Numeral.scan_append hs]
      exact find_of_numeral hbefore
    · rw [List.take_length] at hsign
      cases s with
      | nil => rwa [List.append_nil]
      | cons d s =>
        obtain rfl := hs d rfl
        exact hsign.find_space s

theorem exists_forall₂_writtenAs {ts : List Token} (h : ∀ t ∈ ts, ∃ w, t.WrittenAs w) :
    ∃ ws, List.Forall₂ WrittenAs ts ws := by
  induction ts with
  | nil => exact ⟨[], .nil⟩
  | cons t ts ih =>
    obtain ⟨⟨w, hw⟩, hts⟩ := List.forall_mem_cons.mp h
    obtain ⟨ws, hws⟩ := ih hts
    exact ⟨w :: ws, .cons hw hws⟩

end Token

namespace TokenList

theorem whole?_ofSegments_found (offset : Nat) (t : Token) (text : List Char)
    (segments : List (Text.Segment Token)) :
    (ofSegments offset (.found t text :: segments)).whole? =
      (ofSegments (offset + Text.width text) segments).whole?.map (t :: ·) := by
  rw [ofSegments, whole?, whole?]
  dsimp only
  split <;> rfl

theorem whole?_ofSegments_blank (offset : Nat) {c : Char} (hc : Text.isBlank c = true)
    (segments : List (Text.Segment Token)) :
    (ofSegments offset (.plain c :: segments)).whole? =
      (ofSegments (offset + c.utf8Size) segments).whole? := by
  rw [ofSegments, if_pos hc]

theorem whole?_ofSegments_spaced {ts : List Token} {ws : List (List Char)}
    (h : List.Forall₂ Token.WrittenAs ts ws) (offset : Nat) :
    (ofSegments offset (Text.Segment.cut Token.find ([' '].intercalate ws))).whole? = some ts := by
  induction h generalizing offset with
  | nil => rfl
  | @cons t w ts ws ht hts ih =>
    obtain ⟨c, rest, rfl⟩ : ∃ c rest, w = c :: rest :=
      List.exists_cons_of_ne_nil (by rintro rfl; exact ht)
    have hcut {s : List Char} (hs : ∀ c, s.head? = some c → c = ' ') :
        Text.Segment.cut Token.find (c :: rest ++ s) =
          .found t (c :: rest) :: Text.Segment.cut Token.find s := by
      rw [List.cons_append, Text.Segment.cut_of_found (Token.find_append hs ht), List.take_left,
        List.drop_left]
    cases hts with
    | nil =>
      have htext : [' '].intercalate [c :: rest] = c :: rest ++ [] := by simp
      have hend : ∀ c, ([] : List Char).head? = some c → c = ' ' := nofun
      rw [htext, hcut hend, whole?_ofSegments_found]
      rfl
    | @cons t' w' ts ws ht' hts =>
      have hspace (s : List Char) : ∀ c, (' ' :: s).head? = some c → c = ' ' :=
        fun c hc => (Option.some.inj hc).symm
      rw [List.intercalate_cons_cons, List.append_assoc, List.singleton_append, hcut (hspace _),
        whole?_ofSegments_found, Text.Segment.cut_of_none rfl,
        whole?_ofSegments_blank _ (by decide), ih]
      rfl

/-- Written tokens with single spaces between them are read back. -/
theorem whole?_spaced {ts : List Token} {ws : List (List Char)}
    (h : List.Forall₂ Token.WrittenAs ts ws) :
    (ofText ([' '].intercalate ws)).whole? = some ts :=
  whole?_ofSegments_spaced h 0

end TokenList
end PriceFormula
