import Mathlib.Data.List.Nodup
import PriceFormula.Proofs.Bindings
import PriceFormula.Proofs.Formula.Bound

/-! The report of references without a number: it names exactly those that are missing, and
supplying numbers under these names makes the formula ready. -/

namespace PriceFormula

/-- The second supplied values have all entries of the first one, some of them overwritten by
numbers, and further numbers. -/
def Supplied.UpdatesTo (s s' : Supplied) : Prop :=
  ∀ name : String, s'[name]? = s[name]? ∨ ∃ j : Json, s'[name]? = some j ∧ j.IsNumber

namespace Supplied

theorem updatesTo_insert (s : Supplied) (name : String) {j : Json} (hj : j.IsNumber) :
    s.UpdatesTo (s.insert name j) := by
  intro other
  by_cases h : name = other
  · subst h
    exact .inr ⟨j, Std.TreeMap.getElem?_insert_self, hj⟩
  · refine .inl ?_
    rw [Std.TreeMap.getElem?_insert, if_neg (by simpa using h)]

private theorem UpdatesTo.trans {s s' s'' : Supplied} (h : s.UpdatesTo s') (h' : s'.UpdatesTo s'') :
    s.UpdatesTo s'' := by
  intro name
  rcases h' name with hsame | hnumber
  · rw [hsame]
    exact h name
  · exact .inr hnumber

/-- A number in place of an entry never takes a binding away, whichever spelling of the name it is
for. -/
theorem UpdatesTo.binds {s s' : Supplied} (h : s.UpdatesTo s') {x : String} (hx : s.Binds x) :
    s'.Binds x := by
  obtain ⟨name, j, hj, hnumber, hname⟩ := hx
  rcases h name with hsame | ⟨j', hj', hnumber'⟩
  · exact ⟨name, j, hsame.trans hj, hnumber, hname⟩
  · exact ⟨name, j', hj', hnumber', hname⟩

private theorem binds_of_unmarked {s : Supplied} {x : String} (hx : ':' ∉ x.toList) {j : Json}
    (hj : s[Text.unmarkColons x]? = some j) (hnumber : j.IsNumber) : s.Binds x :=
  ⟨_, j, hj, hnumber, Text.markColons_unmarkColons hx⟩

end Supplied

namespace Formula

private theorem mem_unbound_ofSupplied {f : Formula} {s : Supplied} {x : String} :
    x ∈ f.unbound (.ofSupplied s) ↔ x ∈ f.references ∧ ¬s.Binds x := by
  rw [mem_unbound, ← Bool.not_eq_true, Bindings.contains_ofSupplied]

private theorem unbound_ofSupplied_eq_nil_iff {f : Formula} {s : Supplied} :
    f.unbound (.ofSupplied s) = [] ↔ ∀ x ∈ f.references, s.Binds x := by
  rw [unbound_eq_nil_iff]
  simp only [Bindings.contains_ofSupplied]

private theorem nodup_unbound (f : Formula) (b : Bindings) : (f.unbound b).Nodup := by
  refine (Std.TreeSet.distinct_toList.imp fun hne heq => hne ?_).filter _
  rw [heq]
  exact Std.ReflCmp.compare_self

/-- Different references have different names for users. -/
theorem nodup_unbound_unmarked {f : StoredFormula} {formula : Formula}
    (h : ofStored f = .ok formula) (b : Bindings) :
    ((formula.unbound b).map Text.unmarkColons).Nodup := by
  refine (nodup_unbound formula b).map_on fun x hx y hy hxy => ?_
  rw [← Text.markColons_unmarkColons (colon_not_mem_reference h (mem_unbound.mp hx).1), hxy,
    Text.markColons_unmarkColons (colon_not_mem_reference h (mem_unbound.mp hy).1)]

end Formula

namespace BoundFormula
variable {f : StoredFormula} {formula : Formula} {s : Supplied}

theorem ofStored_ok_iff (h : Formula.ofStored f = .ok formula) :
    (∃ g, ofStored f s = .ok g) ↔ ∀ x ∈ formula.references, s.Binds x := by
  rw [← Formula.unbound_ofSupplied_eq_nil_iff, ofStored_eq h]
  split <;> simp [*]

theorem ofStored_unbound_iff (h : Formula.ofStored f = .ok formula) {names : List String} :
    ofStored f s = .error (.unboundVariables names) ↔
      formula.unbound (.ofSupplied s) ≠ [] ∧
        (formula.unbound (.ofSupplied s)).map Text.unmarkColons = names := by
  rw [ofStored_eq h]
  split <;> simp [*]

end BoundFormula

namespace Pricing

theorem isReady_iff {f : StoredFormula} {s : Supplied} :
    (ofStored f s).isReady = true ↔ ∃ g, BoundFormula.ofStored f s = .ok g := by
  unfold isReady bound? ofStored
  cases BoundFormula.ofStored f s <;> simp [Except.toOption]

/-- The price of a ready formula is that of its shape under the supplied numbers. -/
theorem price_of_isReady {f : StoredFormula} {formula : Formula} {s : Supplied}
    (h : Formula.ofStored f = .ok formula) (hready : (ofStored f s).isReady = true) :
    (ofStored f s).price = BoundFormula.price ⟨formula, .ofSupplied s⟩ := by
  obtain ⟨g, hg⟩ := isReady_iff.mp hready
  have hbound := (BoundFormula.ofStored_ok_iff h).mp ⟨g, hg⟩
  rw [price, ofStored, BoundFormula.ofStored_eq h,
    if_pos (Formula.unbound_ofSupplied_eq_nil_iff.mpr hbound)]

/-- A ready formula stays ready when entries are added or overwritten by numbers. -/
theorem isReady_of_updatesTo {f : StoredFormula} {s s' : Supplied} (hs : s.UpdatesTo s')
    (h : (ofStored f s).isReady = true) : (ofStored f s').isReady = true := by
  obtain ⟨g, hg⟩ := isReady_iff.mp h
  obtain ⟨formula, hformula, -⟩ := bind_eq_ok.mp hg
  have hbound := (BoundFormula.ofStored_ok_iff hformula).mp ⟨g, hg⟩
  exact isReady_iff.mpr
    ((BoundFormula.ofStored_ok_iff hformula).mpr fun x hx => hs.binds (hbound x hx))

/-- The report of missing variables is exact and sufficient. A formula of valid shape is refused for
unbound variables exactly if no number is supplied for one of its references. The report then lists
just those references, by the names users know and each of them once, and whoever supplies numbers
under these names has a formula that is ready. Numbers that are added or put in the place of entries
never take readiness away. -/
theorem unbound_report_exact (f : StoredFormula) (s : Supplied) :
    (∀ formula, Formula.ofStored f = .ok formula →
      ((∃ names, BoundFormula.ofStored f s = .error (.unboundVariables names)) ↔
        ∃ x ∈ formula.references, ¬s.Binds x) ∧
      ∀ names, BoundFormula.ofStored f s = .error (.unboundVariables names) →
        names.Nodup ∧
        (∀ name, name ∈ names ↔
          ∃ x ∈ formula.references, ¬s.Binds x ∧ name = Text.unmarkColons x) ∧
        ∀ s', s.UpdatesTo s' → (∀ name ∈ names, ∃ j : Json, s'[name]? = some j ∧ j.IsNumber) →
          ∃ g, BoundFormula.ofStored f s' = .ok g) ∧
    ∀ s', s.UpdatesTo s' → (ofStored f s).isReady = true → (ofStored f s').isReady = true := by
  refine ⟨fun formula h => ⟨?_, fun names hnames => ?_⟩, fun s' => isReady_of_updatesTo⟩
  · simp only [BoundFormula.ofStored_unbound_iff h, Formula.unbound_ofSupplied_eq_nil_iff, ne_eq,
      exists_and_left, exists_eq', and_true, not_forall, exists_prop]
  · obtain ⟨-, rfl⟩ := (BoundFormula.ofStored_unbound_iff h).mp hnames
    refine ⟨Formula.nodup_unbound_unmarked h _, fun name => ?_, fun s' hs hsupplied => ?_⟩
    · simp only [List.mem_map, Formula.mem_unbound_ofSupplied, and_assoc, eq_comm]
    · refine (BoundFormula.ofStored_ok_iff h).mpr fun x hx => ?_
      by_cases hbound : s.Binds x
      · exact hs.binds hbound
      · have hmem := Formula.mem_unbound_ofSupplied.mpr ⟨hx, hbound⟩
        obtain ⟨j, hj, hnumber⟩ := hsupplied _ (List.mem_map_of_mem hmem)
        exact Supplied.binds_of_unmarked (Formula.colon_not_mem_reference h hx) hj hnumber

/-- A name that overlaps the marker and a string in place of a number are both reported. The formula
is ready once they are numbers, and stays so when one of them changes. -/
theorem unbound_report_of_overlap :
    let f := StoredFormula.single "{_:p__} * {b} + {c}"
    let s : Supplied := .ofList [("b", Json.string "2"), ("c", Json.integer 1)]
    let full := (s.insert "b" (.integer 2)).insert "_:p__" (.float 0.5)
    BoundFormula.ofStored f s = .error (.unboundVariables ["_:p__", "b"]) ∧
      (∃ g, BoundFormula.ofStored f full = .ok g) ∧
      (ofStored f (full.insert "c" (.integer (-3)))).isReady = true := by
  intro f s full
  have hnames : BoundFormula.ofStored f s = .error (.unboundVariables ["_:p__", "b"]) := rfl
  have hb : (Json.integer 2).IsNumber := Json.isNumber_integer (by decide) (by decide)
  have hc : (Json.integer (-3)).IsNumber := Json.isNumber_integer (by decide) (by decide)
  have hp : (Json.float 0.5).IsNumber := Json.isNumber_float (by decide +kernel)
  have hfull : s.UpdatesTo full :=
    (s.updatesTo_insert "b" hb).trans (Supplied.updatesTo_insert _ "_:p__" hp)
  obtain ⟨-, -, hsufficient⟩ := ((unbound_report_exact f s).1 _ rfl).2 _ hnames
  have hready := hsufficient full hfull (by
    simp only [List.forall_mem_cons]
    exact ⟨⟨_, rfl, hp⟩, ⟨_, rfl, hb⟩, nofun⟩)
  exact ⟨hnames, hready, (unbound_report_exact f full).2 _
    (Supplied.updatesTo_insert full "c" hc) (isReady_iff.mpr hready)⟩

end Pricing
end PriceFormula
