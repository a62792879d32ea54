import PriceFormula.Proofs.Except
import PriceFormula.Proofs.Expr.NumeralGrammar

/-! The scanner that moves a byte offset. It keeps one offset into the text, looks at characters
from there on, moves past them one at a time and cuts words out between two offsets. A cut off the
boundaries of characters, a word of digits that is no number and a loop that does not end would be
its faults; at every text it finds the token that is found without offsets. -/

namespace PriceFormula

namespace Text

def splitAt : List Char → Nat → Option (List Char × List Char)
  | s, 0 => some ([], s)
  | [], _ + 1 => none
  | c :: s, position + 1 =>
    if c.utf8Size ≤ position + 1 then
      (splitAt s (position + 1 - c.utf8Size)).map fun cut => (c :: cut.1, cut.2)
    else none

/-- A text is cut exactly at its boundaries. -/
theorem splitAt_eq_some {s front rest : List Char} {position : Nat} :
    splitAt s position = some (front, rest) ↔ s = front ++ rest ∧ width front = position := by
  induction s generalizing front position with
  | nil =>
    cases position with
    | zero => cases front <;> simp [splitAt, width]
    | succ position =>
      refine iff_of_false (by simp [splitAt]) ?_
      rintro ⟨hs, hwidth⟩
      obtain ⟨rfl, -⟩ := List.append_eq_nil_iff.mp hs.symm
      cases hwidth
  | cons c s ih =>
    have hc := c.utf8Size_pos
    cases position with
    | zero =>
      cases front with
      | nil => simp [splitAt, width, eq_comm]
      | cons d front =>
        have := d.utf8Size_pos
        refine iff_of_false (by simp [splitAt]) fun h => ?_
        rw [width_cons] at h
        omega
    | succ position =>
      cases front with
      | nil =>
        refine iff_of_false ?_ fun h => by cases h.2
        rw [splitAt]
        split <;> simp
      | cons d front =>
        rw [splitAt, width_cons, List.cons_append, List.cons.injEq]
        split
        · rw [Option.map_eq_some_iff]
          constructor
          · rintro ⟨⟨front', rest'⟩, hsplit, heq⟩
            obtain ⟨⟨rfl, rfl⟩, rfl⟩ : (c = d ∧ front' = front) ∧ rest' = rest := by
              simpa using heq
            obtain ⟨rfl, hwidth⟩ := ih.mp hsplit
            exact ⟨⟨rfl, rfl⟩, by omega⟩
          · rintro ⟨⟨rfl, hs⟩, hwidth⟩
            exact ⟨(front, rest), ih.mpr ⟨hs, by omega⟩, rfl⟩
        · refine iff_of_false (by simp) ?_
          rintro ⟨⟨rfl, -⟩, hwidth⟩
          omega

def Ahead (s : List Char) (position : Nat) (rest : List Char) : Prop :=
  ∃ front, s = front ++ rest ∧ width front = position

end Text

namespace Scanner
open Text

inductive Fault where
  /-- A cut is no boundary between characters of the text. -/
  | offBoundary (position : Nat)
  | endless
  /-- A word cut out for a number is none. -/
  | malformed (word : List Char) (position : Nat)
  | stray (char : Char) (position : Nat)

variable (s : List Char)

def peek (ahead position : Nat) : Except Fault (Option Char) :=
  match splitAt s position with
  | some (_, rest) => .ok rest[ahead]?
  | none => .error (.offBoundary position)

def advance (position : Nat) : Except Fault Nat := do
  match ← peek s 0 position with
  | some c => return position + c.utf8Size
  | none => return position

def advanceWhile (p : Char → Bool) : (turns : Nat) → (position : Nat) → Except Fault Nat
  | 0, _ => .error .endless
  | turns + 1, position => do
    let next ← peek s 0 position
    if next.any p then
      let position ← advance s position
      advanceWhile p turns position
    else return position

def skip (p : Char → Bool) (position : Nat) : Except Fault Nat :=
  advanceWhile s p (s.length + 1) position

def slice (start stop : Nat) : Except Fault (List Char) :=
  match splitAt s start with
  | none => .error (.offBoundary start)
  | some (_, rest) =>
    if stop < start then .error (.offBoundary stop)
    else
      match splitAt rest (stop - start) with
      | none => .error (.offBoundary stop)
      | some (word, _) => .ok word

def fraction (position : Nat) : Except Fault Nat := do
  let next ← peek s 0 position
  if next = some '.' then
    let position ← advance s position
    skip s Char.isDigit position
  else return position

def isSign (c : Char) : Bool := c = '+' || c = '-'

def power (position : Nat) : Except Fault Nat := do
  let mark ← peek s 0 position
  if mark = some 'e' ∨ mark = some 'E' then
    let sign ← peek s 1 position
    let digit ← peek s (if sign.any isSign then 2 else 1) position
    if digit.any Char.isDigit then
      let position ← advance s position
      let sign ← peek s 0 position
      if sign.any isSign then
        let position ← advance s position
        skip s Char.isDigit position
      else skip s Char.isDigit position
    else return position
  else return position

def number (start : Nat) : Except Fault (Token × Nat) := do
  let position ← skip s Char.isDigit start
  let position ← fraction s position
  let position ← power s position
  let word ← slice s start position
  match Decimal.ofText? word with
  | some d => return (.number d.toFloat, position)
  | none => .error (.malformed word start)

def name (start : Nat) : Except Fault (Token × Nat) := do
  let position ← skip s Token.isNamePart start
  let word ← slice s start position
  return (.ofWord word, position)

def signs : Token.Signs → (position : Nat) → Except Fault (Token × Nat)
  | .one t, position => do
    let position ← advance s position
    return (t, position)
  | .longer t next more, position => do
    let position ← advance s position
    let char ← peek s 0 position
    if char = some next then signs more position else return (t, position)

def numberOrName (c : Char) (position : Nat) : Except Fault (Token × Nat) := do
  let next ← peek s 1 position
  if c.isDigit || c = '.' && next.any Char.isDigit then number s position
  else if Token.isNameStart c then name s position
  else .error (.stray c position)

def tokenAt (c : Char) (position : Nat) : Except Fault (Token × Nat) :=
  match Token.signs? c, Token.doubled? c with
  | some found, _ => signs s found position
  | none, some found => do
    let next ← peek s 1 position
    if next = some c then
      let position ← advance s position
      signs s found position
    else numberOrName s c position
  | none, none => numberOrName s c position

private def outcome (c : Char) (rest : List Char) (position : Nat) (hit : Option (Token × Nat)) :
    Except Fault (Token × Nat) :=
  hit.elim (.error (.stray c position)) fun hit =>
    .ok (hit.1, position + width (c :: rest.take hit.2))

def token (position : Nat) : Except Fault (Option Token × Nat) := do
  match ← peek s 0 position with
  | none => return (none, position)
  | some c =>
    let (t, position) ← tokenAt s c position
    return (some t, position)

end Scanner

/-! A scanner at a boundary. -/

namespace Text.Ahead
open Scanner
variable {s w rest : List Char} {c : Char} {position : Nat}

theorem append (h : Ahead s position (w ++ rest)) : Ahead s (position + width w) rest := by
  obtain ⟨front, rfl, rfl⟩ := h
  exact ⟨front ++ w, (List.append_assoc _ _ _).symm, width_append _ _⟩

private theorem cons (h : Ahead s position (c :: rest)) : Ahead s (position + c.utf8Size) rest :=
  h.append (w := [c])

private theorem length_le (h : Ahead s position rest) : rest.length ≤ s.length := by
  obtain ⟨front, rfl, -⟩ := h
  rw [List.length_append]
  exact Nat.le_add_left _ _

private theorem splitAt (h : Ahead s position rest) :
    ∃ front, splitAt s position = some (front, rest) := by
  obtain ⟨front, hs, hposition⟩ := h
  exact ⟨front, splitAt_eq_some.mpr ⟨hs, hposition⟩⟩

private theorem peek (h : Ahead s position rest) (ahead : Nat) :
    peek s ahead position = .ok rest[ahead]? := by
  obtain ⟨front, hsplit⟩ := h.splitAt
  rw [Scanner.peek, hsplit]

private theorem advance (h : Ahead s position (c :: rest)) :
    advance s position = .ok (position + c.utf8Size) := by
  rw [Scanner.advance, h.peek]
  rfl

private theorem slice (h : Ahead s position (w ++ rest)) :
    slice s position (position + width w) = .ok w := by
  obtain ⟨front, hsplit⟩ := h.splitAt
  have hword : Text.splitAt (w ++ rest) (position + width w - position) = some (w, rest) :=
    splitAt_eq_some.mpr ⟨rfl, (Nat.add_sub_cancel_left _ _).symm⟩
  rw [Scanner.slice, hsplit]
  simp only [hword, if_neg (Nat.not_lt.mpr (Nat.le_add_right position (width w)))]

private theorem advanceWhile {p : Char → Bool} {turns : Nat} (h : Ahead s position (w ++ rest))
    (hw : ∀ c ∈ w, p c = true) (hrest : ∀ c, rest.head? = some c → p c = false)
    (hturns : w.length < turns) : advanceWhile s p turns position = .ok (position + width w) := by
  induction w generalizing position turns with
  | nil =>
    obtain ⟨turns, rfl⟩ : ∃ n, turns = n + 1 := ⟨turns - 1, by simp at hturns; omega⟩
    have hstop : (rest[0]?).any p = false := by
      rw [← List.head?_eq_getElem?]
      cases hhead : rest.head? with
      | none => rfl
      | some c => exact hrest c hhead
    rw [Scanner.advanceWhile, h.peek, ok_bind, List.nil_append, hstop]
    rfl
  | cons c w ih =>
    obtain ⟨turns, rfl⟩ : ∃ n, turns = n + 1 := ⟨turns - 1, by simp at hturns; omega⟩
    have hc : ((c :: w ++ rest)[0]?).any p = true := hw c List.mem_cons_self
    rw [Scanner.advanceWhile, h.peek, ok_bind, if_pos hc, h.advance, ok_bind,
      ih h.cons (fun d hd => hw d (List.mem_cons_of_mem _ hd)) (Nat.lt_of_succ_lt_succ hturns),
      width_cons, Nat.add_assoc]

theorem skip {p : Char → Bool} (h : Ahead s position (w ++ rest)) (hw : ∀ c ∈ w, p c = true)
    (hrest : ∀ c, rest.head? = some c → p c = false) :
    skip s p position = .ok (position + width w) := by
  refine h.advanceWhile hw hrest (Nat.lt_succ_of_le ?_)
  exact Nat.le_trans (by rw [List.length_append]; exact Nat.le_add_right _ _) h.length_le

/-! Numbers. -/

private theorem fraction {f text : List Char} (hf : Numeral.Fraction f text)
    (hrest : Numeral.Ended text rest)
    (h : Ahead s position (text ++ rest)) : fraction s position = .ok (position + width text) := by
  cases hf with
  | none =>
    rw [List.nil_append] at h
    have hnone : rest[0]? ≠ some '.' := by
      rw [← List.head?_eq_getElem?]
      exact hrest.2 rfl
    rw [Scanner.fraction, h.peek, ok_bind, if_neg hnone]
    rfl
  | point hf =>
    rw [List.cons_append] at h
    rw [Scanner.fraction, h.peek, ok_bind, if_pos List.getElem?_cons_zero, h.advance, ok_bind,
      h.cons.skip hf hrest.1, width_cons, Nat.add_assoc]

private theorem digits (h : Ahead s position rest) :
    Scanner.skip s Char.isDigit position = .ok (position + width (Numeral.digitRun rest)) := by
  rw [← Numeral.digitRun_append_drop rest] at h
  exact h.skip Numeral.isDigit_of_mem_digitRun fun c hc => Text.head?_drop_takeWhile hc

private theorem any_isDigit_iff (s : List Char) :
    (s[0]?).any Char.isDigit = true ↔ Numeral.digitRun s ≠ [] := by
  cases s with
  | nil => simp [Numeral.digitRun]
  | cons c s => simp [Numeral.digitRun, List.takeWhile_cons]

private theorem take_digitRun (s : List Char) :
    s.take (Numeral.digitRun s).length = Numeral.digitRun s :=
  (List.prefix_iff_eq_take.mp (List.takeWhile_prefix _)).symm

section Power
variable {mark : Char} (hmark : mark = 'e' ∨ mark = 'E')
include hmark

private theorem signedPower {sign : Char} (hsign : isSign sign = true)
    (h : Ahead s position (mark :: sign :: rest)) : power s position =
      .ok (position + width ((mark :: sign :: rest).take
        (Numeral.powerOfTen (mark :: sign :: rest)).2)) := by
  obtain ⟨factor, hread⟩ : ∃ factor, Numeral.powerOfTen (mark :: sign :: rest) =
      Numeral.powerOfTen.signed rest 2 factor := by
    have hsign : sign = '+' ∨ sign = '-' := by simpa [isSign] using hsign
    rcases hsign with rfl | rfl
    · exact ⟨1, (Numeral.powerOfTen_signed hmark rest).2⟩
    · exact ⟨-1, (Numeral.powerOfTen_signed hmark rest).1⟩
  have hfirst : (mark :: sign :: rest)[0]? = some 'e' ∨ (mark :: sign :: rest)[0]? = some 'E' :=
    hmark.imp (congrArg some) (congrArg some)
  have hsecond : ((mark :: sign :: rest)[1]?).any isSign = true := hsign
  have hdigit : ((mark :: sign :: rest)[2]?).any Char.isDigit = true ↔ Numeral.digitRun rest ≠ [] :=
    any_isDigit_iff rest
  rw [hread, Numeral.powerOfTen.signed, Scanner.power, h.peek, ok_bind, if_pos hfirst, h.peek,
    ok_bind, h.peek, ok_bind, if_pos hsecond]
  by_cases hdigits : Numeral.digitRun rest = []
  · rw [if_neg (fun hany => hdigit.mp hany hdigits), if_pos hdigits]
    rfl
  · have hnext : ((sign :: rest)[0]?).any isSign = true := hsign
    rw [if_pos (hdigit.mpr hdigits), h.advance, ok_bind, h.cons.peek, ok_bind, if_pos hnext,
      h.cons.advance, ok_bind, h.cons.cons.digits, if_neg hdigits, Nat.add_comm 2,
      List.take_succ_cons, List.take_succ_cons, take_digitRun, width_cons, width_cons,
      Nat.add_assoc, Nat.add_assoc]

private theorem unsignedPower (hsign : ¬(rest[0]?).any isSign = true)
    (h : Ahead s position (mark :: rest)) :
    power s position =
      .ok (position + width ((mark :: rest).take (Numeral.powerOfTen (mark :: rest)).2)) := by
  have hunsigned {sign : Char} (hs : isSign sign = true) : rest.head? ≠ some sign := by
    intro hhead
    rw [List.head?_eq_getElem?] at hhead
    exact hsign (by rw [hhead]; exact hs)
  have hread : Numeral.powerOfTen (mark :: rest) = Numeral.powerOfTen.signed rest 1 1 :=
    Numeral.powerOfTen_unsigned hmark (hunsigned rfl) (hunsigned rfl)
  have hfirst : (mark :: rest)[0]? = some 'e' ∨ (mark :: rest)[0]? = some 'E' :=
    hmark.imp (congrArg some) (congrArg some)
  have hsecond : ¬((mark :: rest)[1]?).any isSign = true := hsign
  have hdigit : ((mark :: rest)[1]?).any Char.isDigit = true ↔ Numeral.digitRun rest ≠ [] :=
    any_isDigit_iff rest
  rw [hread, Numeral.powerOfTen.signed, Scanner.power, h.peek, ok_bind, if_pos hfirst, h.peek,
    ok_bind, h.peek, ok_bind, if_neg hsecond]
  by_cases hdigits : Numeral.digitRun rest = []
  · rw [if_neg (fun hany => hdigit.mp hany hdigits), if_pos hdigits]
    rfl
  · rw [if_pos (hdigit.mpr hdigits), h.advance, ok_bind, h.cons.peek, ok_bind, if_neg hsign,
      h.cons.digits, if_neg hdigits, Nat.add_comm 1, List.take_succ_cons, take_digitRun,
      width_cons, Nat.add_assoc]

end Power

private theorem power (h : Ahead s position rest) :
    power s position = .ok (position + width (rest.take (Numeral.powerOfTen rest).2)) := by
  by_cases hmark : rest.head? = some 'e' ∨ rest.head? = some 'E'
  · obtain ⟨mark, tail, rfl⟩ : ∃ mark tail, rest = mark :: tail :=
      List.exists_cons_of_ne_nil (by rintro rfl; simp at hmark)
    replace hmark : mark = 'e' ∨ mark = 'E' := by simpa using hmark
    by_cases hsign : (tail[0]?).any isSign = true
    · obtain ⟨sign, tail, rfl⟩ : ∃ sign behind, tail = sign :: behind :=
        List.exists_cons_of_ne_nil (by rintro rfl; cases hsign)
      exact h.signedPower hmark hsign
    · exact h.unsignedPower hmark hsign
  · have hfirst : ¬(rest[0]? = some 'e' ∨ rest[0]? = some 'E') := by
      rwa [← List.head?_eq_getElem?]
    rw [not_or] at hmark
    rw [Scanner.power, h.peek, ok_bind, if_neg hfirst, Numeral.powerOfTen_of_ne hmark.1 hmark.2]
    rfl

private theorem number {d : Decimal} {n : Nat} (h : Ahead s position rest)
    (hscan : Numeral.scan rest = some (d, n)) :
    number s position = .ok (.number d.toFloat, position + width (rest.take n)) := by
  obtain ⟨w, behind, rfl, rfl, -, hself⟩ := Numeral.exists_of_scan hscan
  have hslice := h.slice
  obtain ⟨whole, f, text, tail, hparts, hwhole, hf, htail⟩ := Numeral.exists_mantissa (w ++ behind)
  rw [hparts] at h hscan
  rw [Numeral.scan_parts hwhole hf htail] at hscan
  have hn : whole.length + text.length + (Numeral.powerOfTen tail).2 = w.length := by
    split at hscan
    · cases hscan
    · exact (Prod.mk.inj (Option.some.inj hscan)).2
  have hw : w = whole ++ (text ++ tail.take (Numeral.powerOfTen tail).2) := by
    calc w = (w ++ behind).take w.length := List.take_left.symm
      _ = (whole ++ (text ++ tail)).take
            (whole.length + (text.length + (Numeral.powerOfTen tail).2)) := by
          rw [hparts, ← hn, Nat.add_assoc]
      _ = _ := by rw [List.take_length_add_append, List.take_length_add_append]
  have hstop : position + width whole + width text +
      width (tail.take (Numeral.powerOfTen tail).2) = position + width w := by
    rw [hw, width_append, width_append, Nat.add_assoc, Nat.add_assoc]
  rw [Scanner.number, h.skip hwhole (hf.stopped_append htail), ok_bind, h.append.fraction hf htail,
    ok_bind, h.append.append.power, ok_bind, hstop, hslice, ok_bind]
  simp only [Numeral.ofText?_of_scan hself, List.take_left]
  rfl

private theorem name (h : Ahead s position (w ++ rest)) (hw : ∀ c ∈ w, Token.isNamePart c = true)
    (hrest : ∀ c, rest.head? = some c → Token.isNamePart c = false) :
    name s position = .ok (.ofWord w, position + width w) := by
  rw [Scanner.name, h.skip hw hrest, ok_bind, h.slice]
  rfl

private theorem numberOrName (h : Ahead s position (c :: rest)) :
    numberOrName s c position = outcome c rest position (Token.findWord c rest) := by
  have hdigit : ((c :: rest)[1]?).any Char.isDigit = true ↔ Numeral.digitRun rest ≠ [] :=
    any_isDigit_iff rest
  rw [Scanner.numberOrName, h.peek, ok_bind, Token.findWord]
  -- no character starts both a name and a number, so it is no matter which is tried first
  by_cases hname : Token.isNameStart c = true
  · have hnumber : ¬(c.isDigit || c = '.' && ((c :: rest)[1]?).any Char.isDigit) = true := by
      intro hstart
      rcases (Bool.or_eq_true _ _).mp hstart with hc | hc
      · rw [Token.isNameStart_eq_false_of_isDigit hc] at hname
        cases hname
      · obtain rfl : c = '.' := of_decide_eq_true ((Bool.and_eq_true _ _).mp hc).1
        cases hname
    have hword : Ahead s position
        ((c :: rest.takeWhile Token.isNamePart) ++ rest.dropWhile Token.isNamePart) := by
      rwa [List.cons_append, List.takeWhile_append_dropWhile]
    have htake : rest.take (rest.takeWhile Token.isNamePart).length =
        rest.takeWhile Token.isNamePart :=
      (List.prefix_iff_eq_take.mp (List.takeWhile_prefix _)).symm
    rw [if_neg hnumber, if_pos hname, if_pos hname, hword.name]
    · rw [outcome, Option.elim_some, htake]
    · exact List.forall_mem_cons.mpr
        ⟨Token.isNamePart_of_isNameStart hname, fun d hd => List.mem_takeWhile_imp hd⟩
    · intro d hd
      rw [← Text.drop_length_takeWhile] at hd
      exact Text.head?_drop_takeWhile hd
  · rw [if_neg hname]
    cases hscan : Numeral.scan (c :: rest) with
    | none =>
      obtain ⟨hc, hpoint⟩ := Numeral.scan_eq_none_iff.mp hscan
      have hnumber : ¬(c.isDigit || c = '.' && ((c :: rest)[1]?).any Char.isDigit) = true := by
        rw [hc, Bool.false_or, Bool.and_eq_true, hdigit, decide_eq_true_eq]
        exact hpoint
      rw [if_neg hnumber, if_neg hname]
      rfl
    | some hit =>
      obtain ⟨d, n⟩ := hit
      have hnumber : (c.isDigit || c = '.' && ((c :: rest)[1]?).any Char.isDigit) = true := by
        by_contra hno
        rw [Bool.or_eq_true, Bool.and_eq_true, hdigit, decide_eq_true_eq, not_or,
          Bool.not_eq_true] at hno
        rw [Numeral.scan_eq_none_iff.mpr hno] at hscan
        cases hscan
      obtain ⟨n, rfl⟩ : ∃ k, n = k + 1 := ⟨n - 1, by have := (Numeral.scan_stops hscan).1; omega⟩
      rw [if_pos hnumber, h.number hscan, if_neg hname]
      rfl

/-! Signs. -/

private theorem outcome_cons (c d : Char) (rest : List Char) (position : Nat) (hit : Token × Nat) :
    outcome d rest (position + c.utf8Size) (some hit) =
      outcome c (d :: rest) position (some (hit.map id (· + 1))) := by
  rw [outcome, outcome, Option.elim_some, Option.elim_some, Prod.map_snd, List.take_succ_cons,
    width_cons c (d :: _), Nat.add_assoc]
  rfl

private theorem signs (h : Ahead s position (c :: rest)) (found : Token.Signs) :
    signs s found position = outcome c rest position (some (found.find rest)) := by
  induction found generalizing c rest position with
  | one t =>
    rw [Scanner.signs, h.advance]
    rfl
  | longer t next more ih =>
    rw [Scanner.signs, h.advance, ok_bind, h.cons.peek, ok_bind, Token.Signs.find,
      ← List.head?_eq_getElem?]
    split
    · obtain ⟨tail, rfl⟩ := List.head?_eq_some_iff.mp ‹_›
      rw [ih h.cons, outcome_cons]
      rfl
    · rfl

private theorem tokenAt (h : Ahead s position (c :: rest)) :
    tokenAt s c position = outcome c rest position (Token.find c rest) := by
  have hnext : (c :: rest)[1]? = rest.head? := by
    rw [List.getElem?_cons_succ, ← List.head?_eq_getElem?]
  unfold Scanner.tokenAt Token.find
  cases Token.signs? c with
  | some found => exact h.signs found
  | none =>
    cases Token.doubled? c with
    | none => exact h.numberOrName
    | some found =>
      dsimp only
      rw [h.peek, ok_bind, hnext]
      split
      · obtain ⟨tail, rfl⟩ := List.head?_eq_some_iff.mp ‹_›
        rw [h.advance, ok_bind, h.cons.signs, outcome_cons]
        rfl
      · exact h.numberOrName

/-! Tokens. -/

theorem token_end (h : Ahead s position []) : token s position = .ok (none, position) := by
  rw [Scanner.token, h.peek]
  rfl

theorem token_found {t : Token} {more : Nat} (h : Ahead s position (c :: rest))
    (hfind : Token.find c rest = some (t, more)) :
    token s position = .ok (some t, position + width (c :: rest.take more)) := by
  have hat := h.tokenAt
  rw [hfind] at hat
  rw [Scanner.token, h.peek, ok_bind]
  dsimp only [List.getElem?_cons_zero]
  rw [hat]
  rfl

theorem token_none (h : Ahead s position (c :: rest)) (hfind : Token.find c rest = none) :
    token s position = .error (.stray c position) := by
  have hat := h.tokenAt
  rw [hfind] at hat
  rw [Scanner.token, h.peek, ok_bind]
  dsimp only [List.getElem?_cons_zero]
  rw [hat]
  rfl

end Text.Ahead
end PriceFormula
