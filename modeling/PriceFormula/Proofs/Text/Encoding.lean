import Mathlib.Data.List.TakeWhile
import PriceFormula.Proofs.Text.Rewriting
import PriceFormula.Proofs.Text.Run

/-! Texts written with entities: what an entity may look like, and that decoding gives back the text
that was meant, however much of it was written so. -/

namespace PriceFormula.Text

namespace Entity

inductive Denotes : List Char → Char → Prop
  | byName {name : List Char} {c : Char} : named name = some c → Denotes (name ++ [';']) c
  | decimal {digits : List Char} {c : Char} : digits ≠ [] → digits.length ≤ 7 →
    (∀ d ∈ digits, d.isDigit = true) → coded (Nat.ofDigitChars 10 digits 0) = some c →
    Denotes ('#' :: (digits ++ [';'])) c
  | hexadecimal {mark : Char} {digits : List Char} {c : Char} : mark = 'x' ∨ mark = 'X' →
    digits ≠ [] → digits.length ≤ 6 → (∀ d ∈ digits, (hexDigit? d).isSome = true) →
    coded (hexValue digits) = some c → Denotes ('#' :: mark :: (digits ++ [';'])) c

private theorem closedRun_eq_some {p : Char → Bool} (hp : p ';' = false) {most : Nat}
    {s run : List Char} :
    closedRun p most s = some run ↔
      run ≠ [] ∧ run.length ≤ most ∧ (∀ c ∈ run, p c = true) ∧ ∃ rest, s = run ++ ';' :: rest := by
  unfold closedRun
  constructor
  · intro h
    dsimp only at h
    split at h
    · rename_i hrun
      obtain rfl := Option.some.inj h
      obtain ⟨hpos, hmost, hclose⟩ := hrun
      refine ⟨List.ne_nil_of_length_pos hpos, hmost, fun c => List.mem_takeWhile_imp, ?_⟩
      obtain ⟨rest, hrest⟩ := List.head?_eq_some_iff.mp hclose
      exact ⟨rest, by rw [← hrest, drop_length_takeWhile, List.takeWhile_append_dropWhile]⟩
    · cases h
  · rintro ⟨hne, hmost, hrun, rest, rfl⟩
    have htake : (run ++ ';' :: rest).takeWhile p = run :=
      takeWhile_append_of_stop hrun (by rintro c ⟨⟩; exact hp)
    dsimp only
    rw [htake, List.drop_left]
    exact if_pos ⟨List.length_pos_iff.mpr hne, hmost, rfl⟩

private theorem isAlpha_of_named {name : List Char} {c : Char} (h : named name = some c) :
    name ≠ [] ∧ ∀ d ∈ name, d.isAlpha = true := by
  unfold named at h
  repeat' split at h
  all_goals first
    | rename_i hname; subst hname; exact ⟨by simp, List.all_eq_true.mp (by decide)⟩
    | cases h

private theorem denotes_of_afterAmpersand {s : List Char} {c : Char} {n : Nat}
    (h : afterAmpersand s = some (c, n)) :
    ∃ body rest, s = body ++ rest ∧ n = body.length ∧ Denotes body c := by
  unfold afterAmpersand at h
  split at h
  · rename_i mark tail
    split at h
    · rename_i hmark
      obtain ⟨run, hrun, h⟩ := Option.bind_eq_some_iff.mp h
      obtain ⟨c', hcode, h⟩ := Option.bind_eq_some_iff.mp h
      obtain ⟨rfl, rfl⟩ := Prod.mk.inj (Option.some.inj h)
      obtain ⟨hne, hmost, hdigits, rest, rfl⟩ := (closedRun_eq_some (by decide)).mp hrun
      exact ⟨'#' :: mark :: (run ++ [';']), rest, by simp, by simp,
        .hexadecimal hmark hne hmost hdigits hcode⟩
    · obtain ⟨run, hrun, h⟩ := Option.bind_eq_some_iff.mp h
      obtain ⟨c', hcode, h⟩ := Option.bind_eq_some_iff.mp h
      obtain ⟨rfl, rfl⟩ := Prod.mk.inj (Option.some.inj h)
      obtain ⟨hne, hmost, hdigits, rest, htext⟩ := (closedRun_eq_some (by decide)).mp hrun
      exact ⟨'#' :: (run ++ [';']), rest, by simp [htext], by simp,
        .decimal hne hmost hdigits hcode⟩
  · obtain ⟨run, hrun, h⟩ := Option.bind_eq_some_iff.mp h
    obtain ⟨c', hname, h⟩ := Option.bind_eq_some_iff.mp h
    obtain ⟨rfl, rfl⟩ := Prod.mk.inj (Option.some.inj h)
    obtain ⟨-, -, -, rest, rfl⟩ := (closedRun_eq_some (by decide)).mp hrun
    exact ⟨run ++ [';'], rest, by simp, by simp, .byName hname⟩

private theorem Denotes.afterAmpersand_append {body : List Char} {c : Char} (h : Denotes body c)
    (rest : List Char) : afterAmpersand (body ++ rest) = some (c, body.length) := by
  cases h with
  | @byName name c hname =>
    obtain ⟨hne, hletters⟩ := isAlpha_of_named hname
    have hrun : closedRun Char.isAlpha (name ++ [';'] ++ rest).length (name ++ [';'] ++ rest) =
        some name :=
      (closedRun_eq_some (by decide)).mpr ⟨hne, by simp, hletters, rest, by simp⟩
    have hhash (tail : List Char) : name ++ [';'] ++ rest ≠ '#' :: tail := by
      obtain ⟨a, w, rfl⟩ := List.exists_cons_of_ne_nil hne
      intro htext
      obtain rfl := (List.cons.inj htext).1
      exact absurd (hletters '#' List.mem_cons_self) (by decide)
    unfold afterAmpersand
    split
    · rename_i htext
      exact absurd htext (hhash _)
    · rw [hrun]
      simp [hname]
  | @decimal digits c hne hmost hdigits hcode =>
    obtain ⟨d, ds, rfl⟩ := List.exists_cons_of_ne_nil hne
    have hmark : ¬(d = 'x' ∨ d = 'X') := by
      have hd := hdigits d List.mem_cons_self
      rintro (rfl | rfl) <;> exact absurd hd (by decide)
    have hrun : closedRun Char.isDigit 7 (d :: (ds ++ [';'] ++ rest)) = some (d :: ds) :=
      (closedRun_eq_some (by decide)).mpr ⟨hne, hmost, hdigits, rest, by simp⟩
    have htext : '#' :: (d :: ds ++ [';']) ++ rest = '#' :: d :: (ds ++ [';'] ++ rest) := by simp
    rw [htext, afterAmpersand, if_neg hmark, hrun]
    simp [hcode]
  | @hexadecimal mark digits c hmark hne hmost hdigits hcode =>
    have hrun : closedRun (fun c => (hexDigit? c).isSome) 6 (digits ++ [';'] ++ rest) =
        some digits :=
      (closedRun_eq_some (by decide)).mpr ⟨hne, hmost, hdigits, rest, by simp⟩
    have htext : '#' :: mark :: (digits ++ [';']) ++ rest =
        '#' :: mark :: (digits ++ [';'] ++ rest) := by simp
    rw [htext, afterAmpersand, if_pos hmark, hrun]
    simp [hcode]

/-- A text denotes a character if all of it is recognised. -/
theorem denotes_iff {body : List Char} {c : Char} :
    Denotes body c ↔ afterAmpersand body = some (c, body.length) := by
  constructor
  · intro h
    have hread := h.afterAmpersand_append []
    rwa [List.append_nil] at hread
  · intro h
    obtain ⟨body', rest, hbody, hlength, h⟩ := denotes_of_afterAmpersand h
    rw [hbody, List.length_append] at hlength
    obtain rfl : rest = [] := List.eq_nil_of_length_eq_zero (by omega)
    rw [List.append_nil] at hbody
    rwa [hbody]

instance (body : List Char) (c : Char) : Decidable (Denotes body c) :=
  decidable_of_iff _ denotes_iff.symm

def outside : List Char := ['&', '{', '}', ':', '_']

theorem Denotes.not_mem {body : List Char} {c : Char} (h : Denotes body c) {d : Char}
    (hd : d ∈ outside) : d ∉ body := by
  have hplain : outside.all (fun d => d.isAlpha = false ∧ d.isDigit = false ∧
      (hexDigit? d).isSome = false ∧ d ∉ ['#', ';', 'x', 'X']) = true := by
    decide
  obtain ⟨halpha, hdigit, hhex, hsign⟩ := of_decide_eq_true (List.all_eq_true.mp hplain d hd)
  simp only [List.mem_cons, List.not_mem_nil, or_false, not_or] at hsign
  intro hmem
  cases h with
  | byName hname =>
    rcases List.mem_append.mp hmem with hmem | hmem
    · rw [(isAlpha_of_named hname).2 d hmem] at halpha
      cases halpha
    · exact hsign.2.1 (List.mem_singleton.mp hmem)
  | decimal _ _ hdigits =>
    simp only [List.mem_cons, List.mem_append, List.not_mem_nil, or_false] at hmem
    rcases hmem with hmem | hmem | hmem
    · exact hsign.1 hmem
    · rw [hdigits d hmem] at hdigit
      cases hdigit
    · exact hsign.2.1 hmem
  | hexadecimal hmark _ _ hdigits =>
    simp only [List.mem_cons, List.mem_append, List.not_mem_nil, or_false] at hmem
    rcases hmem with hmem | rfl | hmem | hmem
    · exact hsign.1 hmem
    · exact hmark.elim hsign.2.2.1 hsign.2.2.2
    · rw [hdigits d hmem] at hhex
      cases hhex
    · exact hsign.2.1 hmem

private theorem find_of_denotes {body : List Char} {c : Char} (h : Denotes body c)
    (rest : List Char) :
    find '&' (body ++ rest) = some (c, body.length) := h.afterAmpersand_append rest

private theorem find_of_ne {c : Char} (hc : c ≠ '&') (rest : List Char) : find c rest = none := by
  unfold find
  split
  · exact absurd rfl hc
  · rfl

private theorem find_eq_some {c d : Char} {rest : List Char} {more : Nat}
    (h : find c rest = some (d, more)) :
    c = '&' ∧ ∃ body tail, rest = body ++ tail ∧ more = body.length ∧ Denotes body d := by
  by_cases hc : c = '&'
  · subst hc
    exact ⟨rfl, denotes_of_afterAmpersand h⟩
  · rw [find_of_ne hc] at h
    cases h

private theorem decode_of_denotes {body : List Char} {c : Char} (h : Denotes body c)
    (rest : List Char) :
    decode ('&' :: (body ++ rest)) = c :: decode rest := by
  rw [decode, Segment.cut_of_found (find_of_denotes h rest), List.drop_left]
  rfl

private theorem decode_of_none {c : Char} {rest : List Char} (h : find c rest = none) :
    decode (c :: rest) = c :: decode rest := by
  rw [decode, Segment.cut_of_none h]
  rfl

def Free (s : List Char) : Prop := ∀ c rest, c :: rest <:+ s → find c rest = none

/-- The first text is the second one with some of its characters written as entities. -/
inductive Encodes : List Char → List Char → Prop
  | nil : Encodes [] []
  | plain {c : Char} {s t : List Char} : Encodes s t → Encodes (c :: s) (c :: t)
  | entity {body s t : List Char} {c : Char} : Denotes body c → Encodes s t →
    Encodes ('&' :: (body ++ s)) (c :: t)

theorem free_of_not_mem {s : List Char} (h : '&' ∉ s) : Free s := by
  intro c rest hsuffix
  refine find_of_ne ?_ rest
  rintro rfl
  exact h (hsuffix.subset List.mem_cons_self)

private theorem Free.tail {c : Char} {s : List Char} (h : Free (c :: s)) : Free s :=
  fun d rest hd => h d rest (hd.trans (List.suffix_cons c s))

private theorem free_nil : Free [] := free_of_not_mem (by decide)

private theorem free_cons {c : Char} {s : List Char} :
    Free (c :: s) ↔ find c s = none ∧ Free s := by
  constructor
  · intro h
    exact ⟨h c s List.suffix_rfl, h.tail⟩
  · rintro ⟨hc, hs⟩ d rest hsuffix
    rcases List.suffix_cons_iff.mp hsuffix with heq | htail
    · obtain ⟨rfl, rfl⟩ := List.cons.inj heq
      exact hc
    · exact hs d rest htail

instance Free.decidable : (s : List Char) → Decidable (Free s)
  | [] => isTrue free_nil
  | _ :: s =>
    have := Free.decidable s
    decidable_of_iff _ free_cons.symm

theorem decode_of_free {s : List Char} (h : Free s) : decode s = s := by
  induction s with
  | nil => rfl
  | cons c s ih => rw [decode_of_none (h c s List.suffix_rfl), ih h.tail]

theorem Encodes.append_left {s t : List Char} (h : Encodes s t) (w : List Char) :
    Encodes (w ++ s) (w ++ t) := by
  induction w with
  | nil => exact h
  | cons c w ih => exact .plain ih

private theorem Encodes.exists_append {w s t : List Char} (hw : '&' ∉ w) (h : Encodes (w ++ s) t) :
    ∃ t', t = w ++ t' := by
  induction w generalizing t with
  | nil => exact ⟨t, rfl⟩
  | cons c w ih =>
    rw [List.mem_cons, not_or] at hw
    generalize htext : c :: w ++ s = text at h
    cases h with
    | nil => cases htext
    | plain h =>
      obtain ⟨rfl, rfl⟩ := List.cons.inj htext
      obtain ⟨t', rfl⟩ := ih hw.2 h
      exact ⟨t', rfl⟩
    | entity => exact absurd (List.cons.inj htext).1.symm hw.1

/-- Decoding gives back what was meant, if that holds no entities itself. No entity is formed by
characters that are written as they are together with others: there would be one in the meaning. -/
theorem Encodes.decode_eq {s t : List Char} (h : Encodes s t) (hfree : Free t) : decode s = t := by
  induction h with
  | nil => rfl
  | @plain c s t h ih =>
    have hfind : find c s = none := by
      cases hs : find c s with
      | none => rfl
      | some hit =>
        obtain ⟨rfl, body, rest, rfl, -, hbody⟩ := find_eq_some hs
        obtain ⟨t', rfl⟩ := h.exists_append (hbody.not_mem (by decide))
        have := hfree '&' _ List.suffix_rfl
        rw [find_of_denotes hbody] at this
        cases this
    rw [decode_of_none hfind, ih hfree.tail]
  | entity hbody _ ih => rw [decode_of_denotes hbody, ih hfree.tail]

end Entity

namespace Marker
open Entity

/-- A text begins in the same way with its colons marked, as far as no colon and no marker does. -/
theorem exists_append_of_mark {w s rest : List Char} (hw : '_' ∉ w) (h : mark s = w ++ rest) :
    ∃ rest', s = w ++ rest' ∧ mark rest' = rest := by
  induction w generalizing s with
  | nil => exact ⟨s, rfl, h⟩
  | cons c w ih =>
    rw [List.mem_cons, not_or] at hw
    cases s with
    | nil => cases h
    | cons d s =>
      rw [mark_cons] at h
      split at h
      · exact absurd (List.cons.inj h).1 hw.1
      · obtain ⟨rfl, htail⟩ := List.cons.inj h
        obtain ⟨rest', rfl, hrest⟩ := ih hw.2 htail
        exact ⟨rest', rfl, hrest⟩

private theorem find_mark_eq_none {c : Char} {s : List Char} (h : find c s = none) :
    find c (mark s) = none := by
  cases hs : find c (mark s) with
  | none => rfl
  | some hit =>
    obtain ⟨rfl, body, rest, hmark, -, hbody⟩ := find_eq_some hs
    obtain ⟨rest', rfl, -⟩ := exists_append_of_mark (hbody.not_mem (by decide)) hmark
    rw [find_of_denotes hbody] at h
    cases h

private theorem decode_marker_append (s : List Char) :
    decode (marker ++ s) = marker ++ decode s := by
  simp only [marker, List.cons_append, List.nil_append]
  repeat rw [decode_of_none (find_of_ne (by decide) _)]

/-- Colons may be marked before entities are decoded or after. -/
theorem mark_decode_mark (s : List Char) : mark (decode (mark s)) = mark (decode s) := by
  induction s using Segment.induct Entity.find with
  | nil => rfl
  | found c rest d more hfind ih =>
    obtain ⟨rfl, body, tail, rfl, rfl, hbody⟩ := find_eq_some hfind
    rw [List.drop_left] at ih
    rw [decode_of_denotes hbody, mark_cons, if_neg (by decide), mark_append,
      mark_eq_self (hbody.not_mem (by decide)), List.singleton_append, decode_of_denotes hbody,
      mark_cons, ih, mark_cons]
  | plain c rest hfind ih =>
    rw [decode_of_none hfind, mark_cons]
    by_cases hc : c = ':'
    · subst hc
      rw [if_pos rfl, decode_marker_append, mark_append, mark_cons, if_pos rfl, ih]
      rfl
    · rw [if_neg hc, List.singleton_append, decode_of_none (find_mark_eq_none hfind), mark_cons, ih,
        mark_cons]

end Marker
end PriceFormula.Text
