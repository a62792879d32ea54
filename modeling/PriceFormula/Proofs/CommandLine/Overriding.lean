import PriceFormula.Proofs.Bindings
import PriceFormula.Proofs.CommandLine.Agreement
import PriceFormula.Proofs.Json.Kept

/-! Bindings on the command line take the place of entries of the variables file under the same
name, letter for letter. A name that may be spelled with a colon or with its marker is bound by the
greatest of its spellings that has a number, wherever that one was given. -/

namespace PriceFormula

private theorem Json.Kept.isFinite {depth : Nat} {j : Json} (h : j.Kept depth) {v : Float}
    (hv : j.number? = some v) : v.isFinite = true := by
  cases h with
  | integer hlow hhigh =>
    obtain ⟨_, hsome, hfinite⟩ := Json.isNumber_integer hlow hhigh
    exact Option.some.inj (hsome.symm.trans hv) ▸ hfinite
  | float hx => exact Option.some.inj hv ▸ hx
  | _ => cases hv

namespace Supplied

private def Kept (s : Supplied) : Prop :=
  ∀ (name : String) (j : Json), s[name]? = some j → ∃ depth, Json.Kept depth j

/-- Another spelling of a name goes before the value `j` that is supplied for it: that spelling has
a number, and it is greater, or `j` is no number. -/
def Shadowed (s : Supplied) (name : String) (j : Json) : Prop :=
  ∃ other k, s[other]? = some k ∧ Text.markColons other = Text.markColons name ∧ other ≠ name ∧
    k.number?.isSome = true ∧ (j.number? = none ∨ name < other)

private theorem getElem?_foldl_insert (bindings : List (String × Json)) (s : Supplied)
    (name : String) :
    (bindings.foldl (fun s b => s.insert b.1 b.2) s)[name]? =
      ((bindings.filter fun b => b.1 = name).getLast?.map Prod.snd).or s[name]? := by
  induction bindings using List.reverseRecOn with
  | nil => rfl
  | append_singleton bindings b ih =>
    rw [List.foldl_append, List.foldl_cons, List.foldl_nil, Std.TreeMap.getElem?_insert, ih,
      List.filter_append, List.getLast?_append]
    by_cases hname : b.1 = name
    · have hfilter : [b].filter (fun b => b.1 = name) = [b] :=
        List.filter_cons_of_pos (decide_eq_true hname)
      rw [if_pos (Std.compare_eq_iff_eq.mpr hname), hfilter]
      rfl
    · have hfilter : [b].filter (fun b => b.1 = name) = [] :=
        List.filter_cons_of_neg (by simpa using hname)
      rw [if_neg (mt Std.compare_eq_iff_eq.mp hname), hfilter, List.getLast?_nil, Option.none_or]

private theorem mem_of_getElem?_ofList {members : List (String × Json)} {name : String} {j : Json}
    (h : (Std.TreeMap.ofList members)[name]? = some j) : (name, j) ∈ members := by
  rw [Std.TreeMap.ofList_eq_insertMany_empty, Std.TreeMap.getElem?_insertMany_list,
    Std.TreeMap.getElem?_emptyc, Option.or_none, List.findSomeRev?_eq_findSome?_reverse] at h
  obtain ⟨m, hm, hfound⟩ := List.exists_of_findSome?_eq_some h
  rw [Option.ite_none_right_eq_some] at hfound
  obtain ⟨hname, hvalue⟩ := hfound
  rw [← Std.compare_eq_iff_eq.mp hname, ← Option.some.inj hvalue]
  exact List.mem_reverse.mp hm

private theorem mem_of_getElem?_foldl_insert {bindings : List (String × Json)} {name : String}
    {j : Json}
    {s : Supplied} (h : (bindings.foldl (fun s b => s.insert b.1 b.2) s)[name]? = some j) :
    (name, j) ∈ bindings ∨ s[name]? = some j := by
  rw [getElem?_foldl_insert] at h
  rcases Option.or_eq_some_iff.mp h with hlast | ⟨-, hbefore⟩
  · obtain ⟨b, hb, rfl⟩ := Option.map_eq_some_iff.mp hlast
    have hmem := List.mem_of_getLast? hb
    obtain ⟨hmem, hname⟩ := List.mem_filter.mp hmem
    left
    rwa [← of_decide_eq_true hname]
  · exact .inr hbefore

section Law
variable {s : Supplied} {x : String}

/-- A value that is shadowed by no other spelling of its name binds the name, if it is a number;
otherwise the name is unbound. -/
private theorem get?_of_not_shadowed (hs : s.Kept) {name : String} {j : Json}
    (hj : s[name]? = some j)
    (h : ¬s.Shadowed name j) :
    (Bindings.ofSupplied s).get? (Text.markColons name) = j.number? := by
  obtain ⟨_, hkept⟩ := hs name j hj
  cases hnumber : j.number? with
  | some v =>
    refine Bindings.get?_ofSupplied_eq_some.mpr
      ⟨name, j, hj, rfl, hnumber, hkept.isFinite hnumber, ?_⟩
    intro other k hk hsame hisNumber
    refine not_lt.mp fun hlt => h ⟨other, k, hk, hsame, hlt.ne', ?_, .inr hlt⟩
    obtain ⟨w, hw, -⟩ := hisNumber
    rw [hw]
    rfl
  | none =>
    cases hbound : (Bindings.ofSupplied s).get? (Text.markColons name) with
    | none => rfl
    | some v =>
      obtain ⟨other, k, hk, hsame, hv, -⟩ := Bindings.get?_ofSupplied_eq_some.mp hbound
      have hne : other ≠ name := by
        rintro rfl
        rw [Option.some.inj (hk.symm.trans hj), hnumber] at hv
        cases hv
      exact absurd ⟨other, k, hk, hsame, hne, by rw [hv]; rfl, .inl hnumber⟩ h

end Law
end Supplied

namespace CommandLine
variable {files : Files} {input : Input} {fromFile s : Supplied}

def Input.fileOnly (input : Input) : Input := { input with bindings := [] }

/-- The last binding on the command line for a name with its colons marked. -/
def Input.lastBinding? (input : Input) (x : String) : Option (String × Json) :=
  (input.bindings.filter fun b => Text.markColons b.1 = x).getLast?

private theorem Input.supplied_eq :
    input.supplied files = (input.fileOnly.supplied files).map fun fromFile =>
    input.bindings.foldl (fun s b => s.insert b.1 b.2) fromFile := by
  unfold supplied fileOnly
  cases input.variablesFile with
  | none => rfl
  | some path =>
    dsimp only
    cases fileVariables files path <;> rfl

private theorem Input.kept_fromFile (h : input.fileOnly.supplied files = .ok fromFile) :
    fromFile.Kept := by
  unfold supplied fileOnly at h
  cases hpath : input.variablesFile with
  | none =>
    rw [hpath] at h
    obtain rfl := Except.ok.inj h
    intro name j hj
    cases hj
  | some path =>
    rw [hpath] at h
    obtain ⟨_, hread, h⟩ := bind_eq_ok.mp h
    obtain rfl := Except.ok.inj h
    obtain ⟨contents, -, hread⟩ := bind_eq_ok.mp hread
    split at hread
    · rename_i members hmembers
      obtain rfl := Except.ok.inj hread
      cases Json.kept_of_ofText hmembers with
      | object _ hvalues =>
        intro name j hj
        exact ⟨_, hvalues _ (Supplied.mem_of_getElem?_ofList hj)⟩
    · cases hread
    · cases hread

private theorem kept_of_parseBinding {argument : String} {b : String × Json}
    (h : parseBinding argument = .ok b) : ∃ depth, Json.Kept depth b.2 := by
  unfold parseBinding at h
  dsimp only at h
  split at h
  · cases h
  split at h
  · cases h
  obtain rfl := Except.ok.inj h
  split
  · rename_i j hj
    exact ⟨_, Json.kept_of_ofText hj⟩
  · exact ⟨0, .string _⟩

private theorem Input.kept_supplied (hbindings : ∀ b ∈ input.bindings, ∃ argument,
    parseBinding argument = .ok b) (h : input.supplied files = .ok s) : s.Kept := by
  rw [supplied_eq] at h
  cases hfile : input.fileOnly.supplied files with
  | error e => rw [hfile] at h; cases h
  | ok fromFile =>
    rw [hfile] at h
    obtain rfl := Except.ok.inj h
    intro name j hj
    rcases Supplied.mem_of_getElem?_foldl_insert hj with hmem | hj
    · obtain ⟨argument, hargument⟩ := hbindings _ hmem
      exact kept_of_parseBinding hargument
    · exact kept_fromFile hfile name j hj

private theorem Input.getElem?_supplied (hfile : input.fileOnly.supplied files = .ok fromFile)
    (h : input.supplied files = .ok s) (name : String) :
    s[name]? = ((input.bindings.filter fun b => b.1 = name).getLast?.map Prod.snd).or
      fromFile[name]? := by
  rw [supplied_eq, hfile] at h
  obtain rfl := Except.ok.inj h
  exact Supplied.getElem?_foldl_insert _ _ _

private theorem Input.getElem?_lastBinding? (hfile : input.fileOnly.supplied files = .ok fromFile)
    (h : input.supplied files = .ok s) {x name : String} {j : Json}
    (hlast : input.lastBinding? x = some (name, j)) :
    s[name]? = some j ∧ Text.markColons name = x := by
  obtain ⟨before, hbefore⟩ := List.getLast?_eq_some_iff.mp hlast
  have hname : Text.markColons name = x := by
    have hmem : (name, j) ∈ input.bindings.filter fun b => Text.markColons b.1 = x := by
      rw [hbefore]
      exact List.mem_append_right _ List.mem_cons_self
    exact of_decide_eq_true (List.mem_filter.mp hmem).2
  have hspelled : (input.bindings.filter fun b => b.1 = name) =
      (before.filter fun b => b.1 = name) ++ [(name, j)] := by
    have hrefine : (input.bindings.filter fun b => b.1 = name) =
        (input.bindings.filter fun b => Text.markColons b.1 = x).filter fun b => b.1 = name := by
      rw [List.filter_filter]
      congr 1
      funext b
      by_cases hb : b.1 = name
      · simp [hb, hname]
      · simp [hb]
    rw [hrefine, hbefore, List.filter_append]
    simp
  refine ⟨?_, hname⟩
  rw [getElem?_supplied hfile h, hspelled, List.getLast?_concat]
  rfl

private theorem Input.get?_of_lastBinding?_none
    (hfile : input.fileOnly.supplied files = .ok fromFile)
    (h : input.supplied files = .ok s) {x : String} (hnone : input.lastBinding? x = none) :
    (Bindings.ofSupplied s).get? x = (Bindings.ofSupplied fromFile).get? x := by
  refine Bindings.get?_ofSupplied_congr fun name hname => ?_
  have hempty : (input.bindings.filter fun b => b.1 = name) = [] := by
    rw [List.filter_eq_nil_iff]
    intro b hb hspelled
    have hmark := List.filter_eq_nil_iff.mp (List.getLast?_eq_none_iff.mp hnone) b hb
    rw [of_decide_eq_true hspelled] at hmark
    exact hmark (decide_eq_true hname)
  rw [getElem?_supplied hfile h, hempty, List.getLast?_nil]
  rfl

/-- The numbers that a formula is priced with, from the variables file and the bindings on the
command line. Under each spelling the last binding takes the place of the entry in the file. A name
that no binding is for is bound as the file alone binds it, and the last binding for a name binds
it, or leaves it unbound if its value is no number, unless another spelling of the name that was
given goes before it. Of several spellings with a number the greatest one binds the name. -/
theorem bindings_of_input {p : Pricing} (hp : input.pricing files = .ok p)
    (hbindings : ∀ b ∈ input.bindings, ∃ argument, parseBinding argument = .ok b) :
    ∃ fromFile s : Supplied, input.fileOnly.supplied files = .ok fromFile ∧
      input.supplied files = .ok s ∧
      (∀ b, p.bound = .ok b → b.bindings = .ofSupplied s) ∧
      (∀ name : String, s[name]? =
        ((input.bindings.filter fun b => b.1 = name).getLast?.map Prod.snd).or fromFile[name]?) ∧
      ∀ x : String,
        (input.lastBinding? x = none →
          (Bindings.ofSupplied s).get? x = (Bindings.ofSupplied fromFile).get? x) ∧
        (∀ name j, input.lastBinding? x = some (name, j) → ¬s.Shadowed name j →
          (Bindings.ofSupplied s).get? x = j.number?) ∧
        ∀ v, (Bindings.ofSupplied s).get? x = some v ↔
          ∃ name j, s[name]? = some j ∧ Text.markColons name = x ∧ j.number? = some v ∧
            ∀ other k, s[other]? = some k → Text.markColons other = x →
              k.number?.isSome = true → other ≤ name := by
  obtain ⟨f, s, -, hs, rfl⟩ := Input.pricing_eq_ok.mp hp
  obtain ⟨fromFile, hfile⟩ : ∃ fromFile, input.fileOnly.supplied files = .ok fromFile := by
    rw [Input.supplied_eq] at hs
    cases hfile : input.fileOnly.supplied files with
    | error e => rw [hfile] at hs; cases hs
    | ok fromFile => exact ⟨fromFile, rfl⟩
  have hkept := Input.kept_supplied hbindings hs
  refine ⟨fromFile, s, hfile, hs, ?_, Input.getElem?_supplied hfile hs, fun x => ⟨?_, ?_, ?_⟩⟩
  · intro b hb
    obtain ⟨formula, -, hb⟩ := bind_eq_ok.mp hb
    obtain ⟨_, hbound, hb⟩ := bind_eq_ok.mp hb
    obtain rfl := Except.ok.inj hb
    exact (Formula.bindingsFrom_eq_ok.mp hbound).1
  · exact Input.get?_of_lastBinding?_none hfile hs
  · intro name j hlast hshadowed
    obtain ⟨hj, rfl⟩ := Input.getElem?_lastBinding? hfile hs hlast
    exact Supplied.get?_of_not_shadowed hkept hj hshadowed
  · intro v
    rw [Bindings.get?_ofSupplied_eq_some]
    constructor
    · rintro ⟨name, j, hj, hname, hv, -, hgreatest⟩
      refine ⟨name, j, hj, hname, hv, fun other k hk hsame hsome => hgreatest other k hk hsame ?_⟩
      obtain ⟨w, hw⟩ := Option.isSome_iff_exists.mp hsome
      obtain ⟨_, hdepth⟩ := hkept other k hk
      exact ⟨w, hw, hdepth.isFinite hw⟩
    · rintro ⟨name, j, hj, hname, hv, hgreatest⟩
      obtain ⟨_, hdepth⟩ := hkept name j hj
      refine ⟨name, j, hj, hname, hv, hdepth.isFinite hv, fun other k hk hsame hisNumber => ?_⟩
      obtain ⟨w, hw, -⟩ := hisNumber
      exact hgreatest other k hk hsame (by rw [hw]; rfl)

/-- The marked spelling of a name goes before the one with a colon in the file, and a text on the
command line before a number. -/
theorem bindings_of_input_marked :
    let input : Input := ⟨.expression "{a:b}", some "v.json",
      [("a__p__b", .integer 4), ("c", .string "abc"), ("a__p__b", .integer 5)]⟩
    let files : Files := fun path =>
      if path = "v.json" then some "\x7b\"a:b\": 1, \"c\": 7\x7d" else none
    ∃ s, input.supplied files = .ok s ∧ (Bindings.ofSupplied s).get? "a__p__b" = some 5 ∧
      (Bindings.ofSupplied s).get? "c" = none := by
  intro input files
  have hbindings : ∀ b ∈ input.bindings, ∃ argument, parseBinding argument = .ok b := by
    intro b hb
    rcases List.mem_cons.mp hb with rfl | hb
    · exact ⟨"a__p__b=4", rfl⟩
    rcases List.mem_cons.mp hb with rfl | hb
    · exact ⟨"c=abc", rfl⟩
    · exact ⟨"a__p__b=5", List.mem_singleton.mp hb ▸ rfl⟩
  let supplied : Supplied := .ofList
    [("a__p__b", Json.integer 5), ("a:b", Json.integer 1), ("c", Json.string "abc")]
  have hsupplied : input.supplied files = .ok supplied := rfl
  have hp : input.pricing files = .ok (Pricing.ofStored (.single "{a:b}") supplied) := rfl
  obtain ⟨_, s, -, hs, -, -, hlaw⟩ := bindings_of_input hp hbindings
  obtain rfl := Except.ok.inj (hsupplied.symm.trans hs)
  refine ⟨supplied, rfl, ?_, ?_⟩
  · refine (hlaw "a__p__b").2.1 "a__p__b" (.integer 5) rfl ?_
    rintro ⟨other, k, hk, hsame, hne, -, hless⟩
    rcases List.mem_cons.mp (Supplied.mem_of_getElem?_ofList hk) with heq | hmem
    · exact hne (Prod.mk.inj heq).1
    rcases List.mem_cons.mp hmem with heq | hmem
    · obtain ⟨rfl, -⟩ := Prod.mk.inj heq
      rcases hless with hnone | hless
      · cases hnone
      · exact absurd hless (by decide)
    · obtain ⟨rfl, -⟩ := Prod.mk.inj (List.mem_singleton.mp hmem)
      exact absurd hsame (by decide)
  · refine (hlaw "c").2.1 "c" (.string "abc") rfl ?_
    rintro ⟨other, k, hk, hsame, hne, -⟩
    rcases List.mem_cons.mp (Supplied.mem_of_getElem?_ofList hk) with heq | hmem
    · obtain ⟨rfl, -⟩ := Prod.mk.inj heq
      exact absurd hsame (by decide)
    rcases List.mem_cons.mp hmem with heq | hmem
    · obtain ⟨rfl, -⟩ := Prod.mk.inj heq
      exact absurd hsame (by decide)
    · exact hne (Prod.mk.inj (List.mem_singleton.mp hmem)).1

/-- A binding with a colon does not take the place of an entry that spells the same name with the
marker, which is greater: the formula is priced with the number of the file. -/
theorem not_overridden_across_spellings :
    let input : Input := ⟨.expression "{a:b}", some "v.json", [("a:b", .integer 5)]⟩
    let files : Files := fun path =>
      if path = "v.json" then some "\x7b\"a__p__b\": 1\x7d" else none
    parseBinding "a:b=5" = .ok ("a:b", .integer 5) ∧
      input.lastBinding? "a__p__b" = some ("a:b", .integer 5) ∧
      (∃ s, input.supplied files = .ok s ∧
        (Bindings.ofSupplied s).get? "a__p__b" ≠ (Json.integer 5).number?) ∧
      run none files ["eval", "--expr", "{a:b}", "--vars", "v.json", "--var", "a:b=5"] =
        ⟨0, "\x7b\"status\":\"success\",\"payload\":1.0\x7d\n", none⟩ := by
  intro input files
  refine ⟨rfl, rfl, ⟨_, rfl, ?_⟩, ?_⟩
  · decide +kernel
  · decide +kernel

end CommandLine
end PriceFormula
