import Mathlib.Tactic.Common
import PriceFormula.Proofs.Formula.References
import PriceFormula.Proofs.Pricing.Missing
import PriceFormula.Proofs.Text.Encoding

/-! Formula texts written with entities. The normal form is that of the text that was meant, so the
parser reads the same. References are searched before entities are decoded, so they are the same
only where no part of one is written as an entity. -/

namespace PriceFormula

namespace Normal
open Text Text.Marker

private theorem filter_mark (s : List Char) :
    ((mark s).filter fun c => c ≠ '{' ∧ c ≠ '}') =
      mark (s.filter fun c => c ≠ '{' ∧ c ≠ '}') := by
  induction s with
  | nil => rfl
  | cons c s ih =>
    rw [mark_cons, List.filter_append, ih, List.filter_cons]
    by_cases hcolon : c = ':'
    · subst hcolon
      rfl
    · rw [if_neg hcolon, List.filter_cons, List.filter_nil]
      split
      · rw [mark_cons, if_neg hcolon]
      · rfl

private theorem map_mark {f : Char → Char} (hcolon : ∀ c, f c = ':' ↔ c = ':')
    (hmarker : marker.map f = marker)
    (s : List Char) : (mark s).map f = mark (s.map f) := by
  induction s with
  | nil => rfl
  | cons c s ih =>
    rw [mark_cons, List.map_append, ih, List.map_cons, mark_cons]
    by_cases hc : c = ':'
    · rw [if_pos hc, if_pos ((hcolon c).mpr hc), hmarker]
    · rw [if_neg hc, if_neg (mt (hcolon c).mp hc)]
      rfl

private theorem group_cons_of_ne {c : Char} (hc : c ≠ 'c') (s : List Char) :
    group (c :: s) = c :: group s :=
  replace_of_not_prefix fun ⟨_, h⟩ => hc (List.cons.inj h).1.symm

theorem group_call (s : List Char) : group (constantCall ++ s) = '(' :: group s := by
  have hprefix : constantCall <+: constantCall ++ s := List.prefix_append _ s
  exact replace_of_prefix hprefix

private theorem group_mark (s : List Char) : group (mark s) = mark (group s) := by
  induction hlen : s.length using Nat.strongRecOn generalizing s with
  | ind n ih =>
    subst hlen
    cases s with
    | nil => rfl
    | cons c s =>
      by_cases hprefix : constantCall <+: c :: s
      · obtain ⟨rest, hrest⟩ := hprefix
        have hshort : rest.length < (c :: s).length := by
          rw [← hrest, List.length_append]
          exact Nat.lt_add_of_pos_left (by decide)
        rw [← hrest, mark_append, mark_eq_self (by decide), group_call, group_call,
          ih _ hshort rest rfl, mark_cons]
        rfl
      · have hs := ih _ (Nat.lt_succ_self _) s rfl
        have hgroup : group (c :: s) = c :: group s := replace_of_not_prefix hprefix
        rw [hgroup, mark_cons, mark_cons, ← hs]
        split
        · simp only [marker, List.cons_append, List.nil_append]
          repeat rw [group_cons_of_ne (by decide)]
        · rename_i hcolon
          refine replace_of_not_prefix fun hmarked => hprefix ?_
          obtain ⟨rest, hrest⟩ := hmarked
          have hmark : mark (c :: s) = constantCall ++ rest := by
            rw [mark_cons, if_neg hcolon, hrest]
            rfl
          obtain ⟨rest', hrest', -⟩ := exists_append_of_mark (by decide) hmark
          exact ⟨rest', hrest'.symm⟩

private theorem respell_mark (s : List Char) : respell (mark s) = respell s := by
  have hpointed := map_mark (f := fun c => if c = ',' then '.' else c)
    (fun c => by split <;> simp_all) rfl
  have hseparated := map_mark (f := fun c => if c = ';' then ',' else c)
    (fun c => by split <;> simp_all) rfl
  have hgroup : replace constantCall ['('] = group := rfl
  rw [respell, respell]
  simp only [filter_mark, hpointed, hgroup, group_mark, hseparated]
  exact mark_eq_self (colon_not_mem_mark _)

/-- The normal form is that of the decoded text. -/
theorem form_eq (s : List Char) : form s = respell (Entity.decode s) := by
  rw [form, ← respell_mark, mark_decode_mark, respell_mark]

end Normal

namespace Text.Entity

private theorem Encodes.form_eq {stored meant : List Char} (h : Encodes stored meant)
    (hfree : Free meant) :
    Normal.form stored = Normal.form meant := by
  rw [Normal.form_eq, Normal.form_eq, h.decode_eq hfree, decode_of_free hfree]

/-- However much of a text without entities is written as entities, its normal form is that of the
text itself, and decoding gives the text back. -/
theorem Encodes.normalForm_eq {stored meant : String} (h : Encodes stored.toList meant.toList)
    (hfree : Free meant.toList) :
    normalForm stored = normalForm meant ∧ decodeEntities stored = meant := by
  constructor
  · rw [normalForm, normalForm, h.form_eq hfree]
  · rw [decodeEntities, h.decode_eq hfree, String.ofList_toList]

/-- The six names and the bounds of code points. -/
example : (["amp", "lt", "gt", "quot", "apos", "nbsp"].map fun name => named name.toList) =
      [some '&', some '<', some '>', some '"', some '\'', some '\u00a0'] ∧
    named ['c', 'o', 'p', 'y'] = none ∧ coded 58 = some ':' ∧
    coded 0xd7ff = some '\ud7ff' ∧ coded 0xd800 = none ∧ coded 0xdfff = none ∧
    coded 0x10ffff = some (Char.ofNat 0x10ffff) ∧ coded 0x110000 = none := by
  decide +kernel

/-- A colon and an ampersand are written as entities. Behind the ampersand stands what would name
the colon with a semicolon, so that only a second pass could take it for one. -/
theorem Encodes.normalForm_eq_ampersand :
    let stored := "{a&#58;b}&amp;#58"
    let meant := "{a:b}&#58"
    normalForm stored = normalForm meant ∧ decodeEntities stored = meant := by
  intro stored meant
  have hstored : stored.toList = ['{', 'a'] ++ '&' :: (['#', '5', '8', ';'] ++
      (['b', '}'] ++ '&' :: (['a', 'm', 'p', ';'] ++ ['#', '5', '8']))) := by decide
  have hmeant : meant.toList = ['{', 'a'] ++ ':' :: (['b', '}'] ++ '&' :: ['#', '5', '8']) := by
    decide
  have hcolon : Denotes ['#', '5', '8', ';'] ':' := by decide
  have hampersand : Denotes ['a', 'm', 'p', ';'] '&' := by decide
  have hencodes : Encodes stored.toList meant.toList := by
    rw [hstored, hmeant]
    apply Encodes.append_left
    apply Encodes.entity hcolon
    apply Encodes.append_left
    apply Encodes.entity hampersand
    exact .plain (.plain (.plain .nil))
  exact hencodes.normalForm_eq (by decide)

end Text.Entity

namespace Reference
open Text Text.Marker

private theorem mem_of_mem_mark {c : Char} {s : List Char} (h : c ∈ mark s) :
    c ∈ s ∨ c ∈ marker := by
  obtain ⟨d, hd, hc⟩ := List.mem_flatMap.mp h
  split at hc
  · exact .inr hc
  · exact .inl (List.mem_singleton.mp hc ▸ hd)

theorem find_eq_some {c : Char} {rest name : List Char} {more : Nat}
    (h : find c rest = some (name, more)) :
    c = '{' ∧ name ≠ [] ∧ '}' ∉ name ∧ more = name.length + 1 ∧
      ∃ tail, rest = name ++ '}' :: tail := by
  by_cases hc : c = '{'
  · subst hc
    simp only [find] at h
    split at h
    · rename_i hname
      obtain ⟨rfl, rfl⟩ := Prod.mk.inj (Option.some.inj h)
      refine ⟨rfl, hname.1, fun hmem => by simpa using List.mem_takeWhile_imp hmem, rfl, ?_⟩
      have hsplit := List.takeWhile_append_dropWhile (p := (· ≠ '}')) (l := rest)
      rw [← drop_length_takeWhile] at hsplit
      cases hdrop : rest.drop (rest.takeWhile (· ≠ '}')).length with
      | nil => exact absurd hname.2 (Nat.not_lt.mpr (List.drop_eq_nil_iff.mp hdrop))
      | cons d tail =>
        have hd : decide (d ≠ '}') = false := head?_drop_takeWhile (by rw [hdrop]; rfl)
        obtain rfl : d = '}' := by simpa using hd
        rw [hdrop] at hsplit
        exact ⟨tail, hsplit.symm⟩
    · cases h
  · rw [find_of_ne hc] at h
    cases h

private theorem occurrences_of_none {c : Char} {rest : List Char} (h : find c rest = none) :
    occurrences (c :: rest) = occurrences rest := by
  rw [occurrences, Segment.cut_of_none h, List.filterMap_cons_none rfl, ← occurrences]

private theorem find_mark_eq_none {c : Char} {rest : List Char} (h : find c rest = none) :
    find c (mark rest) = none := by
  cases hmark : find c (mark rest) with
  | none => rfl
  | some hit =>
    obtain ⟨rfl, hne, hname, -, tail, htext⟩ := find_eq_some hmark
    have hclose : '}' ∈ rest := by
      refine (mem_of_mem_mark (c := '}') ?_).resolve_right (by decide)
      rw [htext]
      exact List.mem_append_right _ List.mem_cons_self
    obtain ⟨stated, behind, rfl, hstated⟩ := List.eq_append_cons_of_mem hclose
    cases stated with
    | nil =>
      -- a name that starts with a closing brace is none with its colons marked either
      obtain ⟨a, w, hw⟩ := List.exists_cons_of_ne_nil hne
      rw [hw] at htext hname
      obtain rfl : '}' = a := (List.cons.inj htext).1
      exact absurd List.mem_cons_self hname
    | cons a w =>
      rw [find_braced (List.cons_ne_nil a w) hstated] at h
      cases h

/-- The references of a text with its colons marked are those of the text, with theirs marked. -/
theorem occurrences_mark (s : List Char) : occurrences (mark s) = (occurrences s).map mark := by
  induction s using Segment.induct find with
  | nil => rfl
  | found c rest name more hfind ih =>
    obtain ⟨rfl, hne, hname, rfl, tail, rfl⟩ := find_eq_some hfind
    rw [drop_braced] at ih
    have hmark : mark ('{' :: (name ++ '}' :: tail)) = '{' :: (mark name ++ '}' :: mark tail) := by
      rw [mark_cons, mark_append, mark_cons]
      rfl
    have hopen : mark name ≠ [] := by
      obtain ⟨a, w, rfl⟩ := List.exists_cons_of_ne_nil hne
      rw [mark_cons]
      split <;> simp [marker]
    have hclose : '}' ∉ mark name := fun h =>
      hname ((mem_of_mem_mark h).resolve_right (by decide))
    rw [hmark, occurrences_braced hopen hclose, ih, occurrences_braced hne hname, List.map_cons]
  | plain c rest hfind ih =>
    rw [occurrences_of_none hfind, mark_cons, ← ih]
    split
    · exact occurrences_append (by decide) _
    · exact occurrences_of_none (find_mark_eq_none hfind)

/-- The first text is the second one with some of its characters written as entities, none of them
in a reference or in its braces. -/
inductive EncodedOutside : List Char → List Char → Prop
  | nil : EncodedOutside [] []
  | plain {c : Char} {s t : List Char} : find c s = none → find c t = none → EncodedOutside s t →
    EncodedOutside (c :: s) (c :: t)
  | entity {body s t : List Char} {c : Char} : Entity.Denotes body c → find c t = none →
    EncodedOutside s t → EncodedOutside ('&' :: (body ++ s)) (c :: t)
  | reference {name s t : List Char} : name ≠ [] → '}' ∉ name → EncodedOutside s t →
    EncodedOutside ('{' :: (name ++ '}' :: s)) ('{' :: (name ++ '}' :: t))

private theorem EncodedOutside.encodes {s t : List Char} (h : EncodedOutside s t) :
    Entity.Encodes s t := by
  induction h with
  | nil => exact .nil
  | plain _ _ _ ih => exact .plain ih
  | entity hbody _ _ ih => exact .entity hbody ih
  | reference _ _ _ ih => exact .plain ((Entity.Encodes.plain ih).append_left _)

private theorem EncodedOutside.occurrences_eq {s t : List Char} (h : EncodedOutside s t) :
    occurrences s = occurrences t := by
  induction h with
  | nil => rfl
  | plain hs ht _ ih => rw [occurrences_of_none hs, occurrences_of_none ht, ih]
  | @entity body s t c hbody ht _ ih =>
    have hopen : '{' ∉ '&' :: body := by
      rw [List.mem_cons, not_or]
      exact ⟨by decide, hbody.not_mem (by decide)⟩
    rw [occurrences_of_none ht, ← ih, ← List.cons_append, occurrences_append hopen]
  | reference hne hname _ ih =>
    rw [occurrences_braced hne hname, occurrences_braced hne hname, ih]

end Reference

private theorem Supplied.exists_binds (names : List String) (h : ∀ x ∈ names, ':' ∉ x.toList) :
    ∃ s : Supplied, ∀ x, s.Binds x ↔ x ∈ names := by
  induction names with
  | nil =>
    refine ⟨∅, fun x => ⟨?_, fun hx => by cases hx⟩⟩
    rintro ⟨name, j, hj, -⟩
    simp at hj
  | cons y names ih =>
    obtain ⟨hy, hnames⟩ := List.forall_mem_cons.mp h
    obtain ⟨s, hs⟩ := ih hnames
    have hone : (Json.integer 1).IsNumber := Json.isNumber_integer (by decide) (by decide)
    refine ⟨s.insert (Text.unmarkColons y) (.integer 1), fun x => ?_⟩
    rw [List.mem_cons, ← hs]
    constructor
    · rintro ⟨name, j, hj, hnumber, rfl⟩
      rw [Std.TreeMap.getElem?_insert] at hj
      split at hj
      · rename_i hname
        obtain rfl : Text.unmarkColons y = name := by simpa using hname
        exact .inl (Text.markColons_unmarkColons hy)
      · exact .inr ⟨name, j, hj, hnumber, rfl⟩
    · rintro (rfl | hx)
      · exact ⟨_, _, Std.TreeMap.getElem?_insert_self, hone, Text.markColons_unmarkColons hy⟩
      · exact (s.updatesTo_insert _ hone).binds hx

private theorem Formula.unbound_of_references {f g : Formula}
    (h : ∀ x, x ∈ f.references ↔ x ∈ g.references) (b : Bindings) : f.unbound b = g.unbound b := by
  rw [unbound, unbound, (Std.TreeSet.Equiv.of_forall_mem_iff h).toList_eq]

namespace Pricing
variable {stored meant : String}

theorem isReady_single_iff {text : String} {s : Supplied} :
    (ofStored (.single text) s).isReady = true ↔
      ∀ x ∈ (Formula.single (.ofStored text)).references, s.Binds x := by
  rw [isReady_iff, BoundFormula.ofStored_ok_iff (Formula.ofStored_single text)]

theorem price_single_of_isReady {text : String} {s : Supplied}
    (h : (ofStored (.single text) s).isReady = true) :
    (ofStored (.single text) s).price = (FormulaText.ofStored text).price (.ofSupplied s) := by
  rw [price_of_isReady (Formula.ofStored_single text) h]
  rfl

private theorem price_of_normal_eq (h : normalForm stored = normalForm meant) {s : Supplied}
    (hstored : (ofStored (.single stored) s).isReady = true)
    (hmeant : (ofStored (.single meant) s).isReady = true) :
    (ofStored (.single stored) s).price = (ofStored (.single meant) s).price := by
  have hnormal : (FormulaText.ofStored stored).normal = (FormulaText.ofStored meant).normal := h
  rw [price_single_of_isReady hstored, price_single_of_isReady hmeant, FormulaText.price_eq,
    FormulaText.price_eq, FormulaText.outcome_congr hnormal]

private theorem outcome_of_references (h : normalForm stored = normalForm meant)
    (hreferences : ∀ x, x ∈ (Formula.single (.ofStored stored)).references ↔
      x ∈ (Formula.single (.ofStored meant)).references) (s : Supplied) :
    (ofStored (.single stored) s).unready? = (ofStored (.single meant) s).unready? ∧
      (ofStored (.single stored) s).price = (ofStored (.single meant) s).price := by
  have hbound (text : String) : (ofStored (.single text) s).bound = _ :=
    BoundFormula.ofStored_eq (Formula.ofStored_single text) s
  have hsame := Formula.unbound_of_references hreferences (.ofSupplied s)
  by_cases hall : (Formula.single (.ofStored meant)).unbound (.ofSupplied s) = []
  · have hready (text : String)
        (htext : (Formula.single (.ofStored text)).unbound (.ofSupplied s) = []) :
        (ofStored (.single text) s).unready? = none ∧
          (ofStored (.single text) s).isReady = true := by
      rw [unready?, isReady, bound?, hbound, if_pos htext]
      exact ⟨rfl, rfl⟩
    obtain ⟨hstored, hstored'⟩ := hready stored (hsame.trans hall)
    obtain ⟨hmeant, hmeant'⟩ := hready meant hall
    exact ⟨hstored.trans hmeant.symm, price_of_normal_eq h hstored' hmeant'⟩
  · rw [unready?, unready?, price, price, hbound, hbound, hsame, if_neg hall, if_neg hall]
    exact ⟨rfl, rfl⟩

private theorem mem_references_of_isReady
    (h : ∀ s, (ofStored (.single meant) s).isReady = true →
      (ofStored (.single stored) s).isReady = true) {x : String}
    (hx : x ∈ (Formula.single (.ofStored stored)).references) :
    x ∈ (Formula.single (.ofStored meant)).references := by
  obtain ⟨s, hs⟩ := Supplied.exists_binds (Formula.single (.ofStored meant)).references.toList
    fun y hy => Formula.colon_not_mem_reference (Formula.ofStored_single meant)
      (Std.TreeSet.mem_toList.mp hy)
  have hmeant := isReady_single_iff.mpr fun y hy => (hs y).mpr (Std.TreeSet.mem_toList.mpr hy)
  exact Std.TreeSet.mem_toList.mp ((hs x).mp (isReady_single_iff.mp (h s hmeant) x hx))

/-- A formula text and one that writes some of its characters as entities, where the first text has
no entities itself. Their normal forms are the same, so where both formulas are ready they have the
same price. Whether they are ready is the same for all supplied values exactly if they have the same
references, which are searched before entities are decoded; then all outcomes are the same. So it is
where no part of a reference is written as an entity. -/
theorem same_of_encoded (h : Text.Entity.Encodes stored.toList meant.toList)
    (hfree : Text.Entity.Free meant.toList) :
    normalForm stored = normalForm meant ∧
    (∀ s, (ofStored (.single stored) s).isReady = true →
      (ofStored (.single meant) s).isReady = true →
      (ofStored (.single stored) s).price = (ofStored (.single meant) s).price) ∧
    ((∀ s, (ofStored (.single stored) s).isReady = (ofStored (.single meant) s).isReady) ↔
      ∀ x, x ∈ (Formula.single (.ofStored stored)).references ↔
        x ∈ (Formula.single (.ofStored meant)).references) ∧
    ((∀ x, x ∈ (Formula.single (.ofStored stored)).references ↔
        x ∈ (Formula.single (.ofStored meant)).references) →
      ∀ s, (ofStored (.single stored) s).unready? = (ofStored (.single meant) s).unready? ∧
        (ofStored (.single stored) s).price = (ofStored (.single meant) s).price) ∧
    (Reference.EncodedOutside stored.toList meant.toList →
      ∀ x, x ∈ (Formula.single (.ofStored stored)).references ↔
        x ∈ (Formula.single (.ofStored meant)).references) := by
  have hnormal : normalForm stored = normalForm meant := by
    rw [normalForm, normalForm, h.form_eq hfree]
  refine ⟨hnormal, fun s => price_of_normal_eq hnormal, ⟨fun hready x => ?_, fun hsame s => ?_⟩,
    outcome_of_references hnormal, fun houtside x => ?_⟩
  · exact ⟨mem_references_of_isReady fun s hs => (hready s).trans hs,
      mem_references_of_isReady fun s hs => (hready s).symm.trans hs⟩
  · rw [Bool.eq_iff_iff, isReady_single_iff, isReady_single_iff]
    exact forall_congr' fun x => imp_congr_left (hsame x)
  · rw [Formula.references, Formula.references, Formula.searchedText, Formula.searchedText,
      Reference.mem_namesIn, Reference.mem_namesIn]
    simp only [FormulaText.ofStored, Text.markColons, String.toList_ofList,
      Reference.occurrences_mark, houtside.occurrences_eq]

/-- A sum whose sign and last operand are written as entities. -/
theorem same_of_encoded_sum :
    let stored := "{a:b} &#x2b; &#49;"
    let meant := "{a:b} + 1"
    (ofStored (.single meant) (.ofList [("a:b", Json.integer 5)])).price = .ok 6 ∧
      ∀ s, (ofStored (.single stored) s).unready? = (ofStored (.single meant) s).unready? ∧
        (ofStored (.single stored) s).price = (ofStored (.single meant) s).price := by
  intro stored meant
  have hstored : stored.toList = '{' :: (['a', ':', 'b'] ++ '}' :: ' ' ::
      '&' :: (['#', 'x', '2', 'b', ';'] ++ ' ' :: '&' :: (['#', '4', '9', ';'] ++ []))) := by
    decide
  have hmeant : meant.toList = '{' :: (['a', ':', 'b'] ++ '}' :: [' ', '+', ' ', '1']) := by decide
  have hplus : Text.Entity.Denotes ['#', 'x', '2', 'b', ';'] '+' := by decide
  have hone : Text.Entity.Denotes ['#', '4', '9', ';'] '1' := by decide
  have houtside : Reference.EncodedOutside stored.toList meant.toList := by
    rw [hstored, hmeant]
    have hnone {c : Char} (hc : c ≠ '{') (s : List Char) := Reference.find_of_ne hc s
    exact .reference (by simp) (by decide) <| .plain (hnone (by decide) _) (hnone (by decide) _) <|
      .entity hplus (hnone (by decide) _) <| .plain (hnone (by decide) _) (hnone (by decide) _) <|
      .entity hone (hnone (by decide) _) .nil
  have hfree : Text.Entity.Free meant.toList := Text.Entity.free_of_not_mem (by decide)
  obtain ⟨-, -, -, hsame, hreferences⟩ := same_of_encoded houtside.encodes hfree
  exact ⟨by decide +kernel, hsame (hreferences houtside)⟩

/-- A colon of a name that is written as an entity: the names in braces that are searched are not
those that were meant, and the formula is refused although its variable is bound. -/
theorem refused_of_encoded_colon :
    let stored := "{a&#58;b}"
    let meant := "{a:b}"
    let s : Supplied := .ofList [("a:b", Json.integer 5)]
    Text.Entity.Encodes stored.toList meant.toList ∧ Text.Entity.Free meant.toList ∧
      (ofStored (.single meant) s).price = .ok 5 ∧
      (ofStored (.single stored) s).price =
        .error (.unready (some (.unboundVariables ["a&#58;b"]))) := by
  intro stored meant s
  have hstored : stored.toList = ['{', 'a'] ++ '&' :: (['#', '5', '8', ';'] ++ ['b', '}']) := by
    decide
  have hmeant : meant.toList = ['{', 'a'] ++ ':' :: ['b', '}'] := by decide
  have hcolon : Text.Entity.Denotes ['#', '5', '8', ';'] ':' := by decide
  refine ⟨?_, Text.Entity.free_of_not_mem (by decide), by decide +kernel, by decide +kernel⟩
  rw [hstored, hmeant]
  exact (Text.Entity.Encodes.entity hcolon (.plain (.plain .nil))).append_left _

end Pricing
end PriceFormula
