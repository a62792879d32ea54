import PriceFormula.Proofs.Expr.Grammar
import PriceFormula.Proofs.Formula.Bound
import PriceFormula.Proofs.Formula.Piece
import PriceFormula.Proofs.Pricing.Outcome

/-! Formula texts of pieces that keep apart. Their references, which are searched in the stored
text, are the only names that evaluation can ask for, although it looks names up in the normal
form, where the braces are gone. -/

namespace PriceFormula

namespace Reference

theorem find_of_ne {c : Char} (hc : c ≠ '{') (rest : List Char) : find c rest = none := by
  unfold find
  split
  · exact absurd rfl hc
  · rfl

theorem find_braced {name : List Char} (hne : name ≠ []) (hname : '}' ∉ name) (rest : List Char) :
    find '{' (name ++ '}' :: rest) = some (name, name.length + 1) := by
  have htake : (name ++ '}' :: rest).takeWhile (· ≠ '}') = name :=
    Text.takeWhile_append_of_stop (fun c hc => decide_eq_true fun h => hname (h ▸ hc))
      (by rintro c ⟨⟩; decide)
  simp only [find, htake]
  rw [if_pos ⟨hne, by simp⟩]

/-- What stands behind a reference. -/
theorem drop_braced (name rest : List Char) :
    (name ++ '}' :: rest).drop (name.length + 1) = rest := by
  rw [← List.drop_drop, List.drop_left]
  rfl

/-- A text without an opening brace is passed over. -/
theorem occurrences_append {w : List Char} (hw : '{' ∉ w) (rest : List Char) :
    occurrences (w ++ rest) = occurrences rest := by
  induction w with
  | nil => rfl
  | cons c w ih =>
    rw [List.mem_cons, not_or] at hw
    rw [List.cons_append, occurrences, Text.Segment.cut_of_none (find_of_ne (Ne.symm hw.1) _),
      List.filterMap_cons_none rfl, ← occurrences, ih hw.2]

/-- A nonempty name in braces is found. -/
theorem occurrences_braced {name : List Char} (hne : name ≠ []) (hname : '}' ∉ name)
    (rest : List Char) :
    occurrences ('{' :: (name ++ '}' :: rest)) = name :: occurrences rest := by
  rw [occurrences, Text.Segment.cut_of_found (find_braced hne hname rest), drop_braced,
    occurrences, List.filterMap_cons]

private theorem occurrences_piece {p : Piece} (hp : p.Valid) (rest : List Char) :
    occurrences (p.marked.chars ++ rest) = p.marked.name?.toList ++ occurrences rest := by
  have hplain (hname : p.name? = none) : occurrences (p.chars ++ rest) = occurrences rest :=
    occurrences_append (fun hc => Piece.not_reserved hp hname _ hc (by decide)) rest
  cases p with
  | reference name =>
    obtain ⟨a, w, hmark, -⟩ := Piece.exists_mark_eq_cons hp
    have hne : Text.Marker.mark name ≠ [] := by
      rw [hmark]
      exact List.cons_ne_nil a w
    have hclose : '}' ∉ Text.Marker.mark name := fun hc =>
      absurd (Piece.isNamePart_mark hp.2.1 _ hc) (by decide)
    have htext : (Piece.reference name).marked.chars ++ rest =
        '{' :: (Text.Marker.mark name ++ '}' :: rest) := by
      simp [Piece.marked, Piece.chars]
    rw [htext, occurrences_braced hne hclose]
    rfl
  | word letters => exact hplain rfl
  | call name => exact hplain rfl
  | sign c => exact hplain rfl

end Reference

namespace WellSpaced
variable {ps : List Piece}

private theorem valid (h : WellSpaced ps) : ∀ p ∈ ps, p.Valid := by
  induction h with
  | nil => nofun
  | cons hp _ _ ih => exact List.forall_mem_cons.mpr ⟨hp, ih⟩

private theorem mark_flatMap (h : WellSpaced ps) :
    Text.Marker.mark (ps.flatMap Piece.chars) = ps.flatMap fun p => p.marked.chars := by
  induction h with
  | nil => rfl
  | cons hp _ _ ih =>
    rw [List.flatMap_cons, Text.Marker.mark_append, Piece.mark_chars hp, ih, List.flatMap_cons]

private theorem filter_flatMap (h : WellSpaced ps) :
    ((ps.flatMap fun p => p.marked.chars).filter fun c => c ≠ '{' ∧ c ≠ '}') =
      ps.flatMap fun p => p.marked.bare := by
  induction h with
  | nil => rfl
  | cons hp _ _ ih =>
    rw [List.flatMap_cons, List.filter_append, Piece.filter_chars hp, ih, List.flatMap_cons]

/-- The references are found, in their order and with their colons marked. -/
theorem occurrences_flatMap (h : WellSpaced ps) :
    Reference.occurrences (ps.flatMap fun p => p.marked.chars) =
      ps.filterMap fun p => p.marked.name? := by
  induction h with
  | nil => rfl
  | @cons p ps hp _ _ ih =>
    rw [List.flatMap_cons, Reference.occurrences_piece hp, ih, List.filterMap_cons]
    cases p.marked.name? <;> rfl

private theorem head_outside {p : Piece} (hjoins : ∀ c, p.MayPrecede c → Piece.joins c = false)
    (hapart : ∀ q, ps.head? = some q → p.Apart q) (h : WellSpaced ps) :
    ∀ c, (ps.flatMap fun p => p.marked.bare).head? = some c → Token.isNamePart c = false := by
  intro c hc
  cases h with
  | nil => nomatch hc
  | @cons q ps hq _ _ =>
    have hnext : ∀ d, q.chars.head? = some d → Piece.joins d = false :=
      fun d hd => hjoins d ((hapart q rfl).2 d hd)
    have hplain (hchars : q.marked.bare = q.chars) : Token.isNamePart c = false := by
      obtain ⟨d, w, hdw⟩ := List.exists_cons_of_ne_nil (Piece.chars_ne_nil hq)
      rw [List.flatMap_cons, hchars, hdw] at hc
      obtain rfl := Option.some.inj hc
      have := hnext d (by rw [hdw]; rfl)
      simp only [Piece.joins, Bool.or_eq_false_iff] at this
      exact this.1.1
    cases q with
    | reference name => exact absurd (hnext '{' rfl) (by decide)
    | word letters => exact hplain rfl
    | call name => exact hplain rfl
    | sign d => exact hplain rfl

private theorem spelled (h : WellSpaced ps) {names : String → Prop}
    (hnames : ∀ name, .reference name ∈ ps → names (String.ofList (Text.Marker.mark name))) :
    Spelled names (ps.flatMap fun p => p.marked.bare) := by
  induction h with
  | nil => exact .nil
  | @cons p ps hp hapart hps ih =>
    have hrest := ih fun name hname => hnames name (List.mem_cons_of_mem p hname)
    rw [List.flatMap_cons]
    cases p with
    | reference name =>
      obtain ⟨a, w, hmark, ha⟩ := Piece.exists_mark_eq_cons hp
      have hpart := Piece.isNamePart_mark hp.2.1
      rw [hmark] at hpart
      have hbare : (Piece.reference name).marked.bare = a :: w := hmark
      rw [hbare, List.cons_append]
      refine .word ha (fun c hc => hpart c (List.mem_cons_of_mem a hc))
        (head_outside (p := .reference name) (fun c hc => hc.1) hapart hps) (fun x hx => .inl ?_) hrest
      rw [Token.eq_of_ofWord_eq_identifier hx, ← hmark]
      exact hnames name List.mem_cons_self
    | word letters =>
      obtain ⟨a, w, rfl⟩ := List.exists_cons_of_ne_nil (Piece.chars_ne_nil hp)
      obtain ⟨ha, hw⟩ := List.forall_mem_cons.mp (Piece.isNameStart_of_keyword hp)
      exact .word ha (fun c hc => Token.isNamePart_of_isNameStart (hw c hc))
        (head_outside (p := .word (a :: w)) (fun c hc => hc) hapart hps)
        (fun x hx => absurd hx (Piece.ofWord_of_keyword hp x)) hrest
    | call name =>
      obtain ⟨f, -, hf⟩ := List.mem_map.mp hp
      cases name with
      | nil => cases f <;> nomatch hf
      | cons a w =>
        obtain ⟨ha, hw⟩ := List.forall_mem_cons.mp (Piece.isNameStart_of_function hf)
        have hbare : (Piece.call (a :: w)).marked.bare = a :: (w ++ ['(']) := rfl
        rw [hbare, List.cons_append, List.append_assoc]
        exact .word ha (fun c hc => Token.isNamePart_of_isNameStart (hw c hc))
          (by rintro c ⟨⟩; decide) (fun _ _ => .inr rfl) (.char (by decide) hrest)
    | sign c => exact .char (Piece.isNameStart_sign hp) hrest

private theorem spelled_form (h : WellSpaced ps) {names : String → Prop}
    (hnames : ∀ name, .reference name ∈ ps → names (String.ofList (Text.Marker.mark name))) :
    Spelled names (Normal.form (ps.flatMap Piece.chars)) := by
  have hcolon := Text.Marker.colon_not_mem_mark (ps.flatMap Piece.chars)
  have hampersand : '&' ∉ Text.Marker.mark (ps.flatMap Piece.chars) := by
    rw [h.mark_flatMap, List.mem_flatMap]
    rintro ⟨p, hp, hc⟩
    exact Piece.ampersand_not_mem (h.valid p hp) hc
  rw [Normal.form, Text.Entity.decode_eq_self hampersand]
  refine .respell hcolon ?_
  rw [h.mark_flatMap, h.filter_flatMap]
  exact h.spelled hnames

/-- The references of the stored text, with their colons marked. -/
theorem mem_references (h : WellSpaced ps) {text : String}
    (htext : text.toList = ps.flatMap Piece.chars) (x : String) :
    x ∈ (Formula.single (.ofStored text)).references ↔
      ∃ name, .reference name ∈ ps ∧ x = Text.markColons (String.ofList name) := by
  have hsource : (FormulaText.ofStored text).source.toList =
      ps.flatMap fun p => p.marked.chars := by
    rw [FormulaText.ofStored, Text.markColons, String.toList_ofList, htext, h.mark_flatMap]
  rw [Formula.references, Formula.searchedText, Reference.mem_namesIn, hsource,
    h.occurrences_flatMap]
  simp only [List.mem_filterMap, Text.markColons, String.toList_ofList]
  constructor
  · rintro ⟨marked, ⟨p, hp, hname⟩, rfl⟩
    obtain ⟨name, rfl, rfl⟩ := Piece.name?_marked_eq_some hname
    exact ⟨name, hp, rfl⟩
  · rintro ⟨name, hp, rfl⟩
    exact ⟨_, ⟨_, hp, rfl⟩, rfl⟩

end WellSpaced

/-- Where names are spelled out, a text has no other variables. -/
theorem Expr.names_of_parse {names : String → Prop} {s : List Char} (h : Spelled names s)
    {e : Expr} (hparse : parse (String.ofList s) = .ok e) : ∀ x ∈ e.vars, names x := by
  intro x hx
  have halone := standsAlone_of_parse hparse hx
  rw [String.toList_ofList] at halone
  exact h.named_scan.of_standsAlone halone

private theorem Pricing.bound_of_isReady {text : String} {supplied : Supplied}
    (h : (Pricing.ofStored (.single text) supplied).isReady = true) :
    ∃ b, (Formula.single (.ofStored text)).bindingsFrom supplied = .ok b ∧
      (Pricing.ofStored (.single text) supplied).bound = .ok ⟨.single (.ofStored text), b⟩ := by
  unfold isReady bound? Pricing.ofStored BoundFormula.ofStored at h
  unfold Pricing.ofStored BoundFormula.ofStored
  rw [Formula.ofStored_single, ok_bind] at h ⊢
  cases hb : (Formula.single (.ofStored text)).bindingsFrom supplied with
  | error err => rw [hb] at h; nomatch h
  | ok b => exact ⟨b, rfl, rfl⟩

/-- The check of references protects evaluation. In a text of pieces that keep apart, the
references found are exactly the names in braces, every variable of the parsed text is one of them,
and so a ready formula never fails for a variable without value. -/
theorem Pricing.ready_of_wellSpaced {ps : List Piece} (h : WellSpaced ps) {text : String}
    (htext : text.toList = ps.flatMap Piece.chars) (supplied : Supplied) :
    (∀ x, x ∈ (Formula.single (.ofStored text)).references ↔
      ∃ name, .reference name ∈ ps ∧ x = Text.markColons (String.ofList name)) ∧
    (∀ e, Expr.parse (normalForm text) = .ok e →
      ∀ x ∈ e.vars, x ∈ (Formula.single (.ofStored text)).references) ∧
    ((Pricing.ofStored (.single text) supplied).isReady = true →
      ∀ x, (Pricing.ofStored (.single text) supplied).price ≠
        .error (.failed (.unboundVariable x))) := by
  have hreferences := h.mem_references htext
  have hspelled : Spelled (· ∈ (Formula.single (.ofStored text)).references)
      (Normal.form text.toList) := by
    rw [htext]
    refine h.spelled_form fun name hname => (hreferences _).mpr ⟨name, hname, ?_⟩
    rw [Text.markColons, String.toList_ofList]
  have hvariables (e : Expr) (he : Expr.parse (FormulaText.ofStored text).normal = .ok e) :=
    Expr.names_of_parse hspelled he
  refine ⟨hreferences, hvariables, fun hready x hprice => ?_⟩
  obtain ⟨b, hb, hbound⟩ := bound_of_isReady hready
  have hvalues := (Formula.bindingsFrom_eq_ok.mp hb).2
  rw [Pricing.price, hbound] at hprice
  exact FormulaText.price_ne_unbound
    (fun e he y hy => hvalues y (hvariables e he y hy)) x hprice

/-- A name with a colon is looked up in a call, and the formula is ready once it is bound. -/
theorem Pricing.ready_of_maximum :
    let ps : List Piece := [.call ['m', 'a', 'x'], .reference ['a', ':', 'b'], .sign ';', .sign '2',
      .sign ')', .sign '+', .reference ['c']]
    let p := Pricing.ofStored (.single (String.ofList (ps.flatMap Piece.chars)))
      (.ofList [("a:b", Json.integer 5), ("c", Json.float 0.5)])
    WellSpaced ps ∧ p.isReady = true ∧ ∀ x, p.price ≠ .error (.failed (.unboundVariable x)) := by
  intro ps p
  have h : WellSpaced ps := by decide
  have hready : p.isReady = true := by decide +kernel
  exact ⟨h, hready, (ready_of_wellSpaced h String.toList_ofList _).2.2 hready⟩

end PriceFormula
