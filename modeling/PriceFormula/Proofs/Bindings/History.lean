import Mathlib.Data.Finset.Card
import PriceFormula.Proofs.Bindings
import PriceFormula.Proofs.Text.ByteOrder
import PriceFormula.Proofs.Text.Rewriting

/-! Bindings and everything that was inserted into them. What they answer is read off the whole
history: the last finite value of a name counts, under whatever spelling it came. -/

namespace PriceFormula

def Supplied.numbers (s : Supplied) : List (String × Float) :=
  s.toList.filterMap fun entry => entry.2.number?.map (entry.1, ·)

private theorem Supplied.mem_numbers {s : Supplied} {name : String} {v : Float} :
    (name, v) ∈ s.numbers ↔ ∃ j, s[name]? = some j ∧ j.number? = some v := by
  simp only [numbers, List.mem_filterMap, Option.map_eq_some_iff, Prod.mk.injEq]
  constructor
  · rintro ⟨entry, hentry, w, hw, rfl, rfl⟩
    exact ⟨entry.2, Std.TreeMap.mem_toList_iff_getElem?_eq_some.mp hentry, hw⟩
  · rintro ⟨j, hj, hv⟩
    exact ⟨(name, j), Std.TreeMap.mem_toList_iff_getElem?_eq_some.mpr hj, v, hv, rfl, rfl⟩

private theorem Supplied.pairwise_numbers (s : Supplied) :
    s.numbers.Pairwise fun a b => Text.ByteLess a.1 b.1 := by
  refine (pairwise_toList s).filterMap _ fun a b hab p hp q hq => ?_
  obtain ⟨v, -, rfl⟩ := Option.map_eq_some_iff.mp hp
  obtain ⟨w, -, rfl⟩ := Option.map_eq_some_iff.mp hq
  exact Text.byteLess_iff.mpr hab

namespace Bindings

inductive Built : Bindings → List (String × Float) → Prop
  | empty : Built empty []
  | ofList (pairs : List (String × Float)) : Built (ofList pairs) pairs
  | ofSupplied (s : Supplied) : Built (ofSupplied s) s.numbers
  | insert {b : Bindings} {history : List (String × Float)} (name : String) (value : Float) :
    Built b history → Built (b.insert name value) (history ++ [(name, value)])

/-- The value is the last finite one that was inserted under a name with this marked form. -/
def IsLastFor (history : List (String × Float)) (x : String) (v : Float) : Prop :=
  ∃ before name after, history = before ++ (name, v) :: after ∧ Text.markColons name = x ∧
    v.isFinite = true ∧ ∀ pair ∈ after, Text.markColons pair.1 = x → pair.2.isFinite = false

def received (history : List (String × Float)) : Finset String :=
  ((history.filter fun pair => pair.2.isFinite).map fun pair => Text.markColons pair.1).toFinset

section History
variable {b : Bindings} {history : List (String × Float)} {x : String} {v : Float}

/-- All bindings come from inserting their history, pair after pair. -/
theorem Built.eq_ofList (h : Built b history) : b = Bindings.ofList history := by
  induction h with
  | empty => rfl
  | ofList pairs => rfl
  | ofSupplied s => rfl
  | insert name value _ ih => rw [ofList_concat, ← ih]

private theorem mem_received :
    x ∈ received history ↔
      ∃ pair ∈ history, pair.2.isFinite = true ∧ Text.markColons pair.1 = x := by
  simp only [received, List.mem_toFinset, List.mem_map, List.mem_filter, and_assoc]

private theorem isLastFor_concat (pair : String × Float) :
    IsLastFor (history ++ [pair]) x v ↔
      if pair.2.isFinite = true ∧ Text.markColons pair.1 = x then pair.2 = v
      else IsLastFor history x v := by
  constructor
  · rintro ⟨before, name, after, hsplit, hname, hfinite, hafter⟩
    rcases after.eq_nil_or_concat' with rfl | ⟨after, last, rfl⟩
    · obtain ⟨rfl, hpair⟩ := List.append_inj' hsplit rfl
      obtain rfl := List.singleton_inj.mp hpair
      rw [if_pos ⟨hfinite, hname⟩]
    · rw [← List.cons_append, ← List.append_assoc] at hsplit
      obtain ⟨rfl, hpair⟩ := List.append_inj' hsplit rfl
      obtain rfl := List.singleton_inj.mp hpair
      have hlast : ¬(pair.2.isFinite = true ∧ Text.markColons pair.1 = x) := by
        rintro ⟨hpair, hsame⟩
        rw [hafter pair (by simp) hsame] at hpair
        cases hpair
      rw [if_neg hlast]
      exact ⟨before, name, after, rfl, hname, hfinite,
        fun q hq => hafter q (List.mem_append_left _ hq)⟩
  · intro h
    split at h
    · rename_i hpair
      subst h
      exact ⟨history, pair.1, [], rfl, hpair.2, hpair.1, by simp⟩
    · rename_i hpair
      obtain ⟨before, name, after, rfl, hname, hfinite, hafter⟩ := h
      refine ⟨before, name, after ++ [pair], by simp, hname, hfinite, ?_⟩
      intro q hq hsame
      rcases List.mem_append.mp hq with hq | hq
      · exact hafter q hq hsame
      · obtain rfl := List.mem_singleton.mp hq
        exact Bool.eq_false_iff.mpr fun hq => hpair ⟨hq, hsame⟩

private theorem get?_ofList_iff (history : List (String × Float)) :
    (ofList history).get? x = some v ↔ IsLastFor history x v := by
  induction history using List.reverseRecOn with
  | nil =>
    rw [ofList, List.foldl_nil, get?_empty]
    refine iff_of_false (by simp) ?_
    rintro ⟨before, name, after, hsplit, -⟩
    simp at hsplit
  | append_singleton history pair ih =>
    rw [ofList_concat, get?_insert, isLastFor_concat]
    split
    · rw [Option.some_inj]
    · exact ih

private theorem exists_isLastFor : (∃ v, IsLastFor history x v) ↔ x ∈ received history := by
  rw [mem_received]
  constructor
  · rintro ⟨v, before, name, after, rfl, hname, hfinite, -⟩
    exact ⟨(name, v), by simp, hfinite, hname⟩
  · induction history using List.reverseRecOn with
    | nil => simp
    | append_singleton history pair ih =>
      rintro ⟨q, hq, hfinite, hname⟩
      simp only [isLastFor_concat]
      by_cases hpair : pair.2.isFinite = true ∧ Text.markColons pair.1 = x
      · exact ⟨pair.2, by rw [if_pos hpair]⟩
      · simp only [if_neg hpair]
        refine ih ⟨q, (List.mem_append.mp hq).resolve_right fun hlast => ?_, hfinite, hname⟩
        obtain rfl := List.mem_singleton.mp hlast
        exact hpair ⟨hfinite, hname⟩

private theorem mem_toList_iff {entry : String × Float} :
    entry ∈ b.toList ↔ b.get? entry.1 = some entry.2 :=
  Std.TreeMap.mem_toList_iff_getElem?_eq_some

private theorem mem_names : x ∈ b.names ↔ b.contains x = true := Std.TreeMap.mem_keys

private theorem pairwise_names (b : Bindings) : b.names.Pairwise (· < ·) :=
  Std.TreeMap.ordered_keys.imp fun h => compare_lt_iff_lt.mp h

private theorem size_eq_card (b : Bindings) : b.size = b.names.toFinset.card := by
  rw [List.toFinset_card_of_nodup ((pairwise_names b).imp ne_of_lt)]
  exact Std.TreeMap.length_keys.symm

end History

/-- Bindings are a map in which the last finite value of a name stays. However they were made, keys
hold no colons and values are finite. For every key, what is found is the last finite value that was
inserted under a name with this marked form; the bound names are exactly the marked names that
received a finite value, in strictly ascending order of their bytes, and they are counted once each.
Values that are not finite change nothing. Supplied values are inserted by ascending name, as far as
they are JSON numbers. -/
theorem answers_of_built :
    (∀ b history, Built b history →
      (∀ entry ∈ b.toList, ':' ∉ entry.1.toList ∧ entry.2.isFinite = true) ∧
      (∀ x v, b.get? x = some v ↔ IsLastFor history x v) ∧
      (∀ x, b.contains x = true ↔ x ∈ received history) ∧
      b.size = (received history).card ∧
      (∀ x, x ∈ b.names ↔ x ∈ received history) ∧ b.names.Pairwise Text.ByteLess ∧
      ∀ name value, value.isFinite = false → b.insert name value = b) ∧
    ∀ s : Supplied, s.numbers.Pairwise (fun p q => Text.ByteLess p.1 q.1) ∧
      ∀ name v, (name, v) ∈ s.numbers ↔ ∃ j, s[name]? = some j ∧ j.number? = some v := by
  refine ⟨fun b history h => ?_, fun s => ⟨s.pairwise_numbers, fun _ _ => Supplied.mem_numbers⟩⟩
  obtain rfl := h.eq_ofList
  have hget (x : String) (v : Float) := get?_ofList_iff (x := x) (v := v) history
  have hcontains (x : String) : (ofList history).contains x = true ↔ x ∈ received history := by
    rw [contains_eq_isSome_get?, Option.isSome_iff_exists, ← exists_isLastFor]
    exact exists_congr fun v => hget x v
  have hnames (x : String) : x ∈ (ofList history).names ↔ x ∈ received history :=
    mem_names.trans (hcontains x)
  refine ⟨fun entry hentry => ?_, hget, hcontains, ?_, hnames, ?_, fun name value hvalue => ?_⟩
  · obtain ⟨-, name, -, -, hname, hfinite, -⟩ := (hget _ _).mp (mem_toList_iff.mp hentry)
    refine ⟨?_, hfinite⟩
    rw [← hname, Text.markColons, String.toList_ofList]
    exact Text.Marker.colon_not_mem_mark _
  · rw [size_eq_card]
    congr 1
    ext x
    rw [List.mem_toFinset, hnames]
  · exact (pairwise_names _).imp Text.byteLess_iff.mpr
  · rw [insert, if_neg (by rw [hvalue]; decide)]

/-- Two spellings of one name are supplied, and a value that is no number is inserted under it. -/
theorem answers_of_built_with_collision :
    let s : Supplied := .ofList [("a__p__b", Json.integer 2), ("a:b", Json.integer 1),
      ("c", Json.string "3")]
    let b := ((ofSupplied s).insert "a:b" (0 / 0)).insert "A" 4
    b.get? "a__p__b" = some 2 ∧ b.contains "a:b" = false ∧ b.contains "c" = false ∧ b.size = 2 ∧
      b.insert "A" (1 / 0) = b := by
  intro s b
  have hnumbers : s.numbers = [("a:b", 1), ("a__p__b", 2)] := by decide +kernel
  have hbuilt : Built b (s.numbers ++ [("a:b", 0 / 0)] ++ [("A", 4)]) :=
    .insert _ _ (.insert _ _ (.ofSupplied s))
  rw [hnumbers] at hbuilt
  obtain ⟨-, hget, hcontains, hsize, -, -, hinsert⟩ := answers_of_built.1 b _ hbuilt
  refine ⟨(hget _ _).mpr ⟨[("a:b", 1)], "a__p__b", [("a:b", 0 / 0), ("A", 4)], rfl, ?_⟩, ?_, ?_, ?_, ?_⟩
  · decide +kernel
  · rw [Bool.eq_false_iff, ne_eq, hcontains]
    decide +kernel
  · rw [Bool.eq_false_iff, ne_eq, hcontains]
    decide +kernel
  · rw [hsize]
    decide +kernel
  · exact hinsert "A" (1 / 0) (by decide +kernel)

end Bindings
end PriceFormula
