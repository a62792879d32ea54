import Mathlib.Data.List.Induction
import Mathlib.Data.String.Basic
import PriceFormula.Bindings
import PriceFormula.Proofs.Number.Reading

/-! Which supplied entry binds a name: the last one, among the finite numbers whose name reads so
once its colons are marked. -/

namespace PriceFormula

namespace Json

def IsNumber (j : Json) : Prop := ∃ v, j.number? = some v ∧ v.isFinite = true

theorem isNumber_float {x : Float} (hx : x.isFinite = true) : (float x).IsNumber := ⟨x, rfl, hx⟩

/-- Every integer that a JSON text can denote is a number. -/
theorem isNumber_integer {n : Int} (hlow : -2 ^ 63 ≤ n) (hhigh : n < 2 ^ 64) :
    (integer n).IsNumber := by
  refine ⟨_, rfl, ?_⟩
  cases n with
  | ofNat n =>
    rw [Int.ofNat_eq_natCast] at hhigh
    exact Number.isFinite_ofNat (by omega)
  | negSucc n => exact Number.isFinite_neg (Number.isFinite_ofNat (by omega))

end Json

private theorem getLast?_filterMap_eq_some {α β : Type} {f : String × α → Option β}
    {l : List (String × α)}
    (hl : l.Pairwise fun a b => a.1 < b.1) {v : β} :
    (l.filterMap f).getLast? = some v ↔
      ∃ a ∈ l, f a = some v ∧ ∀ b ∈ l, (f b).isSome = true → b.1 ≤ a.1 := by
  induction l using List.reverseRecOn with
  | nil => simp
  | append_singleton l a ih =>
    obtain ⟨hl, -, hlast⟩ := List.pairwise_append.mp hl
    have hbelow : ∀ b ∈ l, b.1 < a.1 := fun b hb => hlast b hb a List.mem_cons_self
    rw [List.filterMap_append, List.getLast?_append]
    -- the last element has the last word if it counts, and changes nothing if it does not
    cases ha : f a with
    | none =>
      have hskip : [a].filterMap f = [] := by rw [List.filterMap_cons_none ha, List.filterMap_nil]
      rw [hskip, List.getLast?_nil, Option.none_or, ih hl]
      constructor
      · rintro ⟨b, hb, hv, hgreatest⟩
        refine ⟨b, List.mem_append_left _ hb, hv, fun c hc hsome => ?_⟩
        rcases List.mem_append.mp hc with hc | hc
        · exact hgreatest c hc hsome
        · rw [List.mem_singleton.mp hc, ha] at hsome
          cases hsome
      · rintro ⟨b, hb, hv, hgreatest⟩
        refine ⟨b, ?_, hv, fun c hc => hgreatest c (List.mem_append_left _ hc)⟩
        rcases List.mem_append.mp hb with hb | hb
        · exact hb
        · rw [List.mem_singleton.mp hb, ha] at hv
          cases hv
    | some w =>
      have hfound : [a].filterMap f = [w] := by
        rw [List.filterMap_cons_some ha, List.filterMap_nil]
      rw [hfound, List.getLast?_singleton, Option.some_or]
      constructor
      · rintro ⟨⟩
        refine ⟨a, List.mem_append_right _ List.mem_cons_self, ha, fun b hb _ => ?_⟩
        rcases List.mem_append.mp hb with hb | hb
        · exact (hbelow b hb).le
        · exact (List.mem_singleton.mp hb ▸ le_refl a.1)
      · rintro ⟨b, hb, hv, hgreatest⟩
        have hle := hgreatest a (List.mem_append_right _ List.mem_cons_self) (by rw [ha]; rfl)
        rcases List.mem_append.mp hb with hb | hb
        · exact absurd hle (hbelow b hb).not_ge
        · rw [List.mem_singleton.mp hb, ha] at hv
          exact hv

namespace Supplied

theorem pairwise_toList (s : Supplied) : s.toList.Pairwise fun a b => a.1 < b.1 := by
  refine Std.TreeMap.ordered_keys_toList.imp ?_
  intro a b h
  exact compare_lt_iff_lt.mp h

def numbersFor (s : Supplied) (x : String) : List Float :=
  (s.filter fun name _ => Text.markColons name = x).toList.filterMap fun entry =>
    entry.2.number?.filter Float.isFinite

def Binds (s : Supplied) (x : String) : Prop :=
  ∃ name j, s[name]? = some j ∧ j.IsNumber ∧ Text.markColons name = x

private theorem numbersFor_congr {s s' : Supplied} {x : String}
    (h : ∀ name, Text.markColons name = x → s[name]? = s'[name]?) :
    s.numbersFor x = s'.numbersFor x := by
  have hsame : (s.filter fun name _ => Text.markColons name = x).Equiv
      (s'.filter fun name _ => Text.markColons name = x) := by
    refine .of_forall_constGet?_eq fun name => ?_
    rw [Std.TreeMap.getElem?_filter', Std.TreeMap.getElem?_filter']
    by_cases hname : Text.markColons name = x
    · rw [h name hname]
    · simp [hname]
  rw [numbersFor, hsame.toList_eq, ← numbersFor]

private theorem mem_numbersFor {s : Supplied} {x : String} {v : Float} :
    v ∈ s.numbersFor x ↔ ∃ name j, s[name]? = some j ∧ Text.markColons name = x ∧
      j.number? = some v ∧ v.isFinite = true := by
  rw [numbersFor, List.mem_filterMap]
  simp [Std.TreeMap.mem_toList_iff_getElem?_eq_some, Option.filter_eq_some_iff, and_assoc]

private theorem numbersFor_ne_nil_iff {s : Supplied} {x : String} :
    s.numbersFor x ≠ [] ↔ s.Binds x := by
  rw [ne_eq, ← List.isEmpty_iff, Bool.not_eq_true, List.isEmpty_eq_false_iff_exists_mem]
  simp only [mem_numbersFor]
  constructor
  · rintro ⟨v, name, j, hj, hname, hv⟩
    exact ⟨name, j, hj, ⟨v, hv⟩, hname⟩
  · rintro ⟨name, j, hj, ⟨v, hv⟩, hname⟩
    exact ⟨v, name, j, hj, hname, hv⟩

end Supplied

namespace Bindings

theorem ofList_concat (pairs : List (String × Float)) (p : String × Float) :
    ofList (pairs ++ [p]) = (ofList pairs).insert p.1 p.2 := by
  rw [ofList, List.foldl_append]
  rfl

/-- Of the finite values that a list has for a name, the last one stays. -/
theorem get?_ofList (pairs : List (String × Float)) (x : String) :
    (ofList pairs).get? x = ((pairs.filter fun p => Text.markColons p.1 = x).filterMap fun p =>
      some p.2 |>.filter Float.isFinite).getLast? := by
  induction pairs using List.reverseRecOn with
  | nil => exact get?_empty x
  | append_singleton pairs p ih =>
    rw [ofList_concat, get?_insert, ih, List.filter_append, List.filterMap_append,
      List.getLast?_append]
    by_cases hx : Text.markColons p.1 = x <;> by_cases hv : p.2.isFinite <;>
      simp [hx, hv, Option.filter]

/-- Supplied values bind a name to its last number. -/
theorem get?_ofSupplied (s : Supplied) (x : String) :
    (ofSupplied s).get? x = (s.numbersFor x).getLast? := by
  rw [ofSupplied, get?_ofList, Supplied.numbersFor, Std.TreeMap.toList_filter,
    List.filter_filterMap, List.filterMap_filterMap, List.filterMap_filter]
  congr 2
  funext entry
  cases hj : entry.2.number? with
  | none => simp [hj]
  | some v => by_cases hx : Text.markColons entry.1 = x <;> simp [hj, hx, Option.filter]

/-- The number that binds a name is that of the greatest spelling among those that have one. -/
theorem get?_ofSupplied_eq_some {s : Supplied} {x : String} {v : Float} :
    (ofSupplied s).get? x = some v ↔
      ∃ name j, s[name]? = some j ∧ Text.markColons name = x ∧ j.number? = some v ∧
        v.isFinite = true ∧ ∀ other k, s[other]? = some k → Text.markColons other = x → k.IsNumber →
          other ≤ name := by
  have hmem : ∀ entry : String × Json,
      entry ∈ (s.filter fun name _ => Text.markColons name = x).toList ↔
        s[entry.1]? = some entry.2 ∧ Text.markColons entry.1 = x := by
    intro entry
    rw [Std.TreeMap.mem_toList_iff_getElem?_eq_some, Std.TreeMap.getElem?_filter',
      Option.filter_eq_some_iff, decide_eq_true_iff]
  rw [get?_ofSupplied, Supplied.numbersFor,
    getLast?_filterMap_eq_some (Supplied.pairwise_toList _)]
  constructor
  · rintro ⟨entry, hentry, hv, hgreatest⟩
    obtain ⟨hsome, hname⟩ := (hmem entry).mp hentry
    obtain ⟨hnumber, hfinite⟩ := Option.filter_eq_some_iff.mp hv
    refine ⟨entry.1, entry.2, hsome, hname, hnumber, hfinite, ?_⟩
    intro other k hother hsame hk
    refine hgreatest (other, k) ((hmem _).mpr ⟨hother, hsame⟩) ?_
    obtain ⟨w, hw, hwfinite⟩ := hk
    rw [hw, Option.filter_some_pos hwfinite]
    rfl
  · rintro ⟨name, j, hsome, hname, hnumber, hfinite, hgreatest⟩
    refine ⟨(name, j), (hmem _).mpr ⟨hsome, hname⟩, ?_, ?_⟩
    · rw [hnumber, Option.filter_some_pos hfinite]
    · intro entry hentry hk
      obtain ⟨hother, hsame⟩ := (hmem entry).mp hentry
      obtain ⟨w, hw⟩ := Option.isSome_iff_exists.mp hk
      exact hgreatest entry.1 entry.2 hother hsame ⟨w, Option.filter_eq_some_iff.mp hw⟩
/-- Entries of other names do not matter. -/
theorem get?_ofSupplied_congr {s s' : Supplied} {x : String}
    (h : ∀ name, Text.markColons name = x → s[name]? = s'[name]?) :
    (ofSupplied s).get? x = (ofSupplied s').get? x := by
  rw [get?_ofSupplied, get?_ofSupplied, Supplied.numbersFor_congr h]

/-- A marked name is bound exactly if an entry binds it to a number. -/
theorem contains_ofSupplied {s : Supplied} {x : String} :
    (ofSupplied s).contains x = true ↔ s.Binds x := by
  rw [contains_eq_isSome_get?, get?_ofSupplied, List.getLast?_isSome,
    Supplied.numbersFor_ne_nil_iff]

end Bindings
end PriceFormula
