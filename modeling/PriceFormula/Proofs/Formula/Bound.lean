import PriceFormula.Pricing.Basic
import PriceFormula.Proofs.Except
import PriceFormula.Proofs.Text.Rewriting

namespace PriceFormula

/-- A conditional formula whose lines may be any JSON. -/
def StoredFormula.ofLines (lines : List Json) : StoredFormula := ⟨"conditional", .array lines⟩

/-- The references of a text are the names that occur in it. -/
theorem Reference.mem_namesIn {s x : String} :
    x ∈ namesIn s ↔ ∃ name ∈ occurrences s.toList, x = String.ofList name := by
  rw [namesIn, Std.TreeSet.mem_ofList, List.contains_iff_mem, List.mem_map]
  exact exists_congr fun name => and_congr_right fun _ => eq_comm

private theorem Reference.subset_of_mem_occurrences {s name : List Char}
    (h : name ∈ occurrences s) :
    name ⊆ s := by
  obtain ⟨segment, hsegment, hname⟩ := List.mem_filterMap.mp h
  cases segment with
  | plain c => nomatch hname
  | found item text =>
    obtain rfl := Option.some.inj hname
    obtain ⟨c, rest, more, hsuffix, hfind⟩ := Text.Segment.find_of_found_mem_cut hsegment
    have hrest : rest ⊆ s := fun d hd => hsuffix.subset (List.mem_cons_of_mem c hd)
    unfold find at hfind
    split at hfind
    · dsimp only at hfind
      split at hfind
      · obtain ⟨rfl, -⟩ := Prod.mk.inj (Option.some.inj hfind)
        exact fun d hd => hrest (List.takeWhile_subset _ hd)
      · nomatch hfind
    · nomatch hfind

namespace Formula

def texts : Formula → List FormulaText
  | single expression => [expression]
  | conditional cases => cases.flatMap fun c => [c.condition, c.result]

theorem toList_searchedText (f : Formula) :
    f.searchedText.toList = f.texts.flatMap fun t => t.source.toList := by
  cases f with
  | single expression => simp [searchedText, texts]
  | conditional cases => simp [searchedText, texts, String.toList_join, List.flatMap_assoc]

/-- A single text always fits its mode. -/
theorem ofStored_single (text : String) :
    ofStored (.single text) = .ok (.single (.ofStored text)) := by
  have hmode : (StoredFormula.single text).declaredMode = .single := if_pos rfl
  rw [ofStored, hmode]
  rfl

/-- Any list of lines fits the conditional mode. -/
theorem ofStored_ofLines (lines : List Json) :
    ofStored (.ofLines lines) = .ok (.conditional (lines.filterMap Case.ofLine?)) := by
  have hmode : (StoredFormula.ofLines lines).declaredMode = .conditional :=
    (if_neg (by decide : "conditional" ≠ "oneline")).trans (if_pos rfl)
  rw [ofStored, hmode]
  rfl

/-- A formula has the mode that its stored form declares. -/
theorem mode_eq_of_ofStored {f : StoredFormula} {formula : Formula}
    (h : ofStored f = .ok formula) : formula.mode = f.declaredMode := by
  unfold ofStored inMode at h
  split at h
  · rename_i hmode _
    obtain rfl := Except.ok.inj h
    exact hmode.symm
  · cases h
  · rename_i hmode _
    obtain rfl := Except.ok.inj h
    exact hmode.symm
  · cases h
  · cases h

theorem mode_known (f : Formula) : f.mode = .single ∨ f.mode = .conditional := by
  cases f with
  | single expression => exact .inl rfl
  | conditional cases => exact .inr rfl

private theorem exists_stored_of_mem_texts {f : StoredFormula} {formula : Formula}
    (h : ofStored f = .ok formula) {t : FormulaText} (ht : t ∈ formula.texts) :
    ∃ s, t = .ofStored s := by
  unfold ofStored inMode at h
  split at h
  · obtain rfl := Except.ok.inj h
    exact ⟨_, List.mem_singleton.mp ht⟩
  · nomatch h
  · obtain rfl := Except.ok.inj h
    obtain ⟨c, hc, ht⟩ := List.mem_flatMap.mp ht
    obtain ⟨line, -, hline⟩ := List.mem_filterMap.mp hc
    obtain ⟨kind, -, hcase⟩ := Option.bind_eq_some_iff.mp hline
    split at hcase
    · obtain rfl := Option.some.inj hcase
      simp only [List.mem_cons, List.not_mem_nil, or_false] at ht
      rcases ht with rfl | rfl
      · exact ⟨_, rfl⟩
      · exact ⟨_, rfl⟩
    · nomatch hcase
  · nomatch h
  · nomatch h

/-- References hold no colons, since they are searched where colons are marked. -/
theorem colon_not_mem_reference {f : StoredFormula} {formula : Formula}
    (h : ofStored f = .ok formula) {x : String} (hx : x ∈ formula.references) : ':' ∉ x.toList := by
  obtain ⟨name, hname, rfl⟩ := Reference.mem_namesIn.mp hx
  rw [String.toList_ofList]
  intro hcolon
  have hsearched := Reference.subset_of_mem_occurrences hname hcolon
  rw [toList_searchedText] at hsearched
  obtain ⟨t, ht, hsource⟩ := List.mem_flatMap.mp hsearched
  obtain ⟨s, rfl⟩ := exists_stored_of_mem_texts h ht
  rw [FormulaText.ofStored, Text.markColons, String.toList_ofList] at hsource
  exact Text.Marker.colon_not_mem_mark _ hsource

theorem unbound_eq_nil_iff {f : Formula} {b : Bindings} :
    f.unbound b = [] ↔ ∀ x ∈ f.references, b.contains x = true := by
  rw [unbound, List.filter_eq_nil_iff]
  refine forall_congr' fun x => ?_
  rw [Std.TreeSet.mem_toList, Bool.not_eq_true, Bool.not_eq_false']

private theorem bindingsFrom_eq (f : Formula) (supplied : Supplied) :
    f.bindingsFrom supplied =
      if f.unbound (.ofSupplied supplied) = [] then .ok (.ofSupplied supplied)
      else .error (.unboundVariables ((f.unbound (.ofSupplied supplied)).map Text.unmarkColons)) := by
  rw [bindingsFrom]
  simp only [checkBound]
  split <;> rfl

/-- Supplied values make bindings for a formula exactly if they bind all its references. -/
theorem bindingsFrom_eq_ok {f : Formula} {supplied : Supplied} {b : Bindings} :
    f.bindingsFrom supplied = .ok b ↔
      b = .ofSupplied supplied ∧ ∀ x ∈ f.references, b.contains x = true := by
  rw [bindingsFrom_eq]
  constructor
  · intro h
    split at h
    · obtain rfl := Except.ok.inj h
      exact ⟨rfl, unbound_eq_nil_iff.mp ‹_›⟩
    · nomatch h
  · rintro ⟨rfl, hbound⟩
    exact if_pos (unbound_eq_nil_iff.mpr hbound)

theorem mem_unbound {f : Formula} {b : Bindings} {x : String} :
    x ∈ f.unbound b ↔ x ∈ f.references ∧ b.contains x = false := by
  rw [unbound, List.mem_filter, Std.TreeSet.mem_toList, Bool.not_eq_true']

theorem unbound_congr {f : Formula} {b b' : Bindings}
    (h : ∀ x ∈ f.references, b.get? x = b'.get? x) : f.unbound b = f.unbound b' := by
  refine List.filter_congr fun x hx => ?_
  rw [Bindings.contains_eq_isSome_get?, Bindings.contains_eq_isSome_get?,
    h x (Std.TreeSet.mem_toList.mp hx)]

end Formula

/-- Once the shape of a stored formula is settled, only its references can keep it from being ready.
-/
theorem BoundFormula.ofStored_eq {f : StoredFormula} {formula : Formula}
    (h : Formula.ofStored f = .ok formula) (supplied : Supplied) :
    BoundFormula.ofStored f supplied =
      if formula.unbound (.ofSupplied supplied) = [] then .ok ⟨formula, .ofSupplied supplied⟩
      else .error
        (.unboundVariables ((formula.unbound (.ofSupplied supplied)).map Text.unmarkColons)) := by
  rw [ofStored, h, ok_bind, Formula.bindingsFrom_eq]
  split <;> rfl

/-- A formula that is ready has the mode that was declared. -/
theorem Pricing.mode_of_bound {f : StoredFormula} {supplied : Supplied} {b : BoundFormula}
    (h : (ofStored f supplied).bound = .ok b) : (ofStored f supplied).mode = b.formula.mode := by
  obtain ⟨formula, hformula, hrest⟩ := bind_eq_ok.mp h
  obtain ⟨bindings, -, hb⟩ := bind_eq_ok.mp hrest
  obtain rfl := Except.ok.inj hb
  exact (Formula.mode_eq_of_ofStored hformula).symm

end PriceFormula
