import PriceFormula.Proofs.Json.Values

namespace PriceFormula.Json

def Printable (s : List Char) : Prop := ∀ c ∈ s, 0x20 ≤ c.toNat

private theorem printable_of_all {s : List Char} (h : s.all (0x20 ≤ ·.toNat) = true) :
    Printable s :=
  fun c hc => of_decide_eq_true (List.all_eq_true.mp h c hc)

private theorem printable_nil : Printable [] := nofun

private theorem printable_cons {c : Char} {s : List Char} (hc : 0x20 ≤ c.toNat) (hs : Printable s) :
    Printable (c :: s) :=
  List.forall_mem_cons.mpr ⟨hc, hs⟩

private theorem printable_append {s t : List Char} (hs : Printable s) (ht : Printable t) :
    Printable (s ++ t) :=
  List.forall_mem_append.mpr ⟨hs, ht⟩

private theorem printable_flatMap {α : Type} {text : α → List Char} {xs : List α}
    (h : ∀ x ∈ xs, Printable (text x)) : Printable (xs.flatMap text) := by
  intro c hc
  obtain ⟨x, hx, hmem⟩ := List.mem_flatMap.mp hc
  exact h x hx c hmem

private theorem printable_of_digits {s : List Char} (h : ∀ c ∈ s, c.isDigit = true) :
    Printable s := by
  intro c hc
  have hdigit := h c hc
  rw [Char.isDigit] at hdigit
  have hlow : '0'.val ≤ c.val := (Bool.and_eq_true_iff.mp hdigit).1 |> of_decide_eq_true
  have := UInt32.le_iff_toNat_le.mp hlow
  exact Nat.le_trans (by decide) this

private theorem printable_writtenChar (c : Char) : Printable (writtenChar c) := by
  rw [writtenChar]
  split
  · rename_i h
    rcases h with rfl | rfl <;> exact printable_of_all (by decide)
  iterate 5
    split
    · exact printable_of_all (by decide)
  split
  · rename_i hlow
    have hquad : ∀ n : Fin 0x20, (Text.hexText 4 n).all (0x20 ≤ ·.toNat) = true := by decide
    exact printable_cons (by decide)
      (printable_cons (by decide) (printable_of_all (hquad ⟨c.toNat, hlow⟩)))
  · rename_i hlow
    exact printable_cons (Nat.le_of_not_lt hlow) printable_nil

private theorem printable_writtenString (s : String) : Printable (writtenString s) := by
  refine printable_cons (by decide) (printable_append ?_ (printable_cons (by decide) printable_nil))
  exact printable_flatMap fun c _ => printable_writtenChar c

open NumberParts in
private theorem printable_signedText {p : NumberParts} (hp : p.WellFormed) (negative : Bool) :
    Printable (signedText negative p) := by
  have hfraction : Printable (fractionText p.fraction) := by
    cases hcase : p.fraction with
    | none => exact printable_nil
    | some digits =>
      exact printable_cons (by decide) (printable_of_digits (hp.fraction_digits digits hcase))
  have hpower : Printable (powerText p.power) := by
    cases p.power with
    | none => exact printable_nil
    | some n =>
      have hdigits : Printable (Nat.toDigits 10 n.natAbs) := printable_of_digits isDigit_toDigits
      refine printable_cons (by decide) (printable_cons ?_ hdigits)
      split <;> decide
  have htext : Printable p.text :=
    printable_append (printable_of_digits hp.whole_digits) (printable_append hfraction hpower)
  cases negative with
  | true => exact printable_cons (by decide) htext
  | false => exact htext

/-- No written value holds a character below the space. -/
theorem printable_write (j : Json) : Printable (write j) := by
  induction j using parts_induction with
  | null => exact printable_of_all (by decide)
  | bool b => cases b <;> exact printable_of_all (by decide)
  | integer n =>
    rw [write, writtenInteger_eq]
    exact printable_signedText (wellFormed_wholeParts _) _
  | float x =>
    rw [write]
    by_cases hx : x.isFinite = true
    · obtain ⟨negative, p, hp, htext⟩ := exists_writtenFloat hx
      rw [htext]
      exact printable_signedText hp negative
    · rw [writtenFloat, if_neg hx]
      exact printable_of_all (by decide)
  | string s =>
    rw [write]
    exact printable_writtenString s
  | array js ih =>
    rw [write]
    refine printable_cons (by decide) (printable_append ?_ (printable_of_all (by decide)))
    cases js with
    | nil => exact printable_nil
    | cons j js =>
      rw [writeItems_cons]
      refine printable_append (ih j List.mem_cons_self) (printable_flatMap fun k hk => ?_)
      exact printable_cons (by decide) (ih k (List.mem_cons_of_mem j hk))
  | object ms ih =>
    rw [write]
    refine printable_cons (by decide) (printable_append ?_ (printable_of_all (by decide)))
    have hmember : ∀ m ∈ ms, Printable (writtenMember m) := fun m hm =>
      printable_append (printable_writtenString m.1) (printable_cons (by decide) (ih m hm))
    cases ms with
    | nil => exact printable_nil
    | cons m ms =>
      rw [writeMembers_cons]
      refine printable_append (hmember m List.mem_cons_self) (printable_flatMap fun k hk => ?_)
      exact printable_cons (by decide) (hmember k (List.mem_cons_of_mem m hk))

end PriceFormula.Json
