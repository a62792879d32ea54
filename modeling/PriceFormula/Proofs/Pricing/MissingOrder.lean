import PriceFormula.Proofs.Pricing.Missing
import PriceFormula.Proofs.Text.ByteOrder
import PriceFormula.Proofs.Text.MarkedOrder

/-! The order in which missing variables are reported. The references are sorted while their colons
are marked and unmarked for the report, so it is sorted by marked names, and by the names it shows
only where no name is overtaken. -/

namespace PriceFormula

private theorem pairwise_iff_of_pairwise {α : Type} {R S : α → α → Prop} {l : List α}
    (hasymm : ∀ a b, R a b → ¬R b a) (h : l.Pairwise R) :
    l.Pairwise S ↔ ∀ a ∈ l, ∀ b ∈ l, R a b → S a b := by
  induction l with
  | nil => simp
  | cons c l ih =>
    obtain ⟨hc, hl⟩ := List.pairwise_cons.mp h
    rw [List.pairwise_cons, ih hl]
    constructor
    · rintro ⟨hhead, htail⟩ a ha b hb hab
      rcases List.mem_cons.mp ha with rfl | hal
      · rcases List.mem_cons.mp hb with rfl | hbl
        · exact absurd hab (hasymm _ _ hab)
        · exact hhead b hbl
      · rcases List.mem_cons.mp hb with rfl | hbl
        · exact absurd hab (hasymm _ _ (hc a hal))
        · exact htail a hal b hbl hab
    · intro hall
      refine ⟨fun b hb => hall c List.mem_cons_self b (List.mem_cons_of_mem c hb) (hc b hb), ?_⟩
      intro a ha b hb
      exact hall a (List.mem_cons_of_mem c ha) b (List.mem_cons_of_mem c hb)

namespace Text

private theorem markColons_lt_iff {x y : String} :
    markColons x < markColons y ↔ Marker.mark x.toList < Marker.mark y.toList := by
  rw [String.lt_iff_toList_lt, markColons, markColons, String.toList_ofList, String.toList_ofList]

/-- Names in the order of their marked forms are in order themselves exactly if none of them is
overtaken by another one. -/
private theorem pairwise_byteLess_iff {names : List String}
    (h : (names.map markColons).Pairwise (· < ·)) :
    names.Pairwise ByteLess ↔ ∀ x ∈ names, ∀ y ∈ names, ¬Marker.Overtaken x.toList y.toList := by
  rw [pairwise_iff_of_pairwise (fun _ _ => lt_asymm) (List.pairwise_map.mp h)]
  constructor
  · intro hall x hx y hy hover
    have hless := hall y hy x hx (markColons_lt_iff.mpr hover.mark_lt)
    exact lt_asymm (byteLess_iff.mp hless) hover.lt
  · intro hall x hx y hy hmark
    rw [byteLess_iff, String.lt_iff_toList_lt, Marker.lt_iff_of_mark_lt (markColons_lt_iff.mp hmark)]
    exact hall y hy x hx

end Text

namespace Formula

private theorem pairwise_unbound (f : Formula) (b : Bindings) : (f.unbound b).Pairwise (· < ·) := by
  refine List.Pairwise.filter _ (Std.TreeSet.ordered_toList.imp ?_)
  intro x y h
  exact compare_lt_iff_lt.mp h

private theorem map_marked_unbound {f : StoredFormula} {formula : Formula}
    (h : ofStored f = .ok formula)
    (b : Bindings) :
    ((formula.unbound b).map Text.unmarkColons).map Text.markColons = formula.unbound b := by
  rw [List.map_map]
  refine (List.map_congr_left fun x hx => ?_).trans (List.map_id _)
  exact Text.markColons_unmarkColons (colon_not_mem_reference h (mem_unbound.mp hx).1)

end Formula

namespace Pricing

/-- A report of unbound variables comes from a formula of valid shape. -/
theorem exists_formula_of_report {f : StoredFormula} {s : Supplied} {names : List String}
    (h : BoundFormula.ofStored f s = .error (.unboundVariables names)) :
    ∃ formula, Formula.ofStored f = .ok formula := by
  rcases bind_eq_error.mp h with hshape | ⟨formula, hformula, -⟩
  · unfold Formula.ofStored Formula.inMode at hshape
    split at hshape <;> cases hshape
  · exact ⟨formula, hformula⟩

/-- The report of missing variables is in strictly ascending order of the marked names. It is in the
order of the names it shows exactly if none of them is overtaken by another one, as `a:b` is by
`aZ`: a name with a colon where the other one goes on with a greater character, whose marked form
nevertheless is less than that of the colon. This needs a character from `;` to `_` in a name. -/
theorem order_of_report {f : StoredFormula} {s : Supplied} {names : List String}
    (h : BoundFormula.ofStored f s = .error (.unboundVariables names)) :
    (names.map Text.markColons).Pairwise Text.ByteLess ∧
    (names.Pairwise Text.ByteLess ↔
      ∀ x ∈ names, ∀ y ∈ names, ¬Text.Marker.Overtaken x.toList y.toList) ∧
    ((∀ x ∈ names, ∀ y ∈ names, ':' ∈ x.toList → ∀ c ∈ y.toList, c ≤ ':' ∨ '_' < c) →
      names.Pairwise Text.ByteLess) := by
  obtain ⟨formula, hformula⟩ := exists_formula_of_report h
  obtain ⟨-, rfl⟩ := (BoundFormula.ofStored_unbound_iff hformula).mp h
  have hsorted := Formula.pairwise_unbound formula (.ofSupplied s)
  rw [← Formula.map_marked_unbound hformula] at hsorted
  have horder := Text.pairwise_byteLess_iff hsorted
  refine ⟨hsorted.imp Text.byteLess_iff.mpr, horder, fun hnames => horder.mpr ?_⟩
  intro x hx y hy
  exact Text.Marker.not_overtaken (hnames x hx y hy)

/-- Names in small letters are reported in order, with a colon or without. -/
theorem order_of_report_in_small_letters :
    let f := StoredFormula.single "{b:c} + {ab} * {a:b} + {a}"
    BoundFormula.ofStored f ∅ = .error (.unboundVariables ["a", "a:b", "ab", "b:c"]) ∧
      ["a", "a:b", "ab", "b:c"].Pairwise Text.ByteLess := by
  intro f
  have hreport : BoundFormula.ofStored f ∅ =
    .error (.unboundVariables ["a", "a:b", "ab", "b:c"]) := rfl
  have hletters : ["a", "a:b", "ab", "b:c"].all
      (fun name => name.toList.all fun c => c ≤ ':' ∨ '_' < c) = true := by
    decide
  refine ⟨hreport, (order_of_report hreport).2.2 ?_⟩
  intro x _ y hy _ c hc
  exact of_decide_eq_true (List.all_eq_true.mp (List.all_eq_true.mp hletters y hy) c hc)

/-- A capital letter stands between the colon and its marker, so the names that are shown are not
in order. -/
theorem report_out_of_order :
    BoundFormula.ofStored (.single "{a:b}{aZ}") ∅ = .error (.unboundVariables ["aZ", "a:b"]) ∧
      ¬["aZ", "a:b"].Pairwise Text.ByteLess := by
  refine ⟨rfl, ?_⟩
  rw [List.pairwise_pair, Text.byteLess_iff]
  decide

end Pricing
end PriceFormula
