import PriceFormula.Proofs.Expr.Writing
import PriceFormula.Proofs.Formula.Encoding
import PriceFormula.Proofs.Pricing.Mentioned

/-! A formula that is one name in braces. The name is searched with its braces and read without
them, so it denotes its variable only if it reads as an identifier by itself. -/

namespace PriceFormula

namespace Token

structure IsName (a : Char) (w : List Char) : Prop where
  starts : isNameStart a = true
  goesOn : ∀ c ∈ w, isNamePart c = true
  noKeyword : (a :: w).map Char.toLower ∉ Piece.keywords

private theorem ofWord_of_not_keyword {w : List Char} (h : w.map Char.toLower ∉ Piece.keywords) :
    ofWord w = .identifier (String.ofList w) := by
  simp only [Piece.keywords, List.mem_cons, List.not_mem_nil, or_false, not_or] at h
  obtain ⟨htrue, hfalse, hand, hor, hnot⟩ := h
  rw [ofWord]
  simp only [htrue, hfalse, hand, hor, hnot, if_false]

private theorem isName_of_mem_scan {s : List Char} {x : String} (h : .identifier x ∈ scan s) :
    ∃ a w, x.toList = a :: w ∧ IsName a w := by
  obtain ⟨text, hfound⟩ := TokenList.exists_found_of_mem_among h
  obtain ⟨c, rest, more, -, hfind⟩ := Text.Segment.find_of_found_mem_cut hfound
  cases hc : isNameStart c with
  | true =>
    rw [find_of_nameStart hc] at hfind
    obtain ⟨hword, -⟩ := Prod.mk.inj (Option.some.inj hfind)
    refine ⟨c, rest.takeWhile isNamePart, ?_, hc, fun d => List.mem_takeWhile_imp, fun hkeyword => ?_⟩
    · rw [eq_of_ofWord_eq_identifier hword, String.toList_ofList]
    · exact Piece.ofWord_of_keyword hkeyword x hword
  | false =>
    rcases find_of_not_nameStart hc hfind with ⟨d, -, hnumber⟩ | ⟨hsign, -⟩
    · cases hnumber
    · exact absurd rfl (hsign.ne_identifier x)

end Token

/-- A name that stands alone is parsed as a variable. -/
theorem Expr.parse_name {a : Char} {w : List Char} (h : Token.IsName a w) :
    parse (String.ofList (a :: w)) = .ok (.var (String.ofList (a :: w))) := by
  have hall : w.takeWhile Token.isNamePart = w := List.takeWhile_eq_self_iff.mpr h.goesOn
  have hwritten : (Token.identifier (String.ofList (a :: w))).WrittenAs (a :: w) := by
    rw [Token.WrittenAs, Token.find_of_nameStart h.starts, hall,
      Token.ofWord_of_not_keyword h.noKeyword]
  have hwhole := TokenList.whole?_spaced (.cons hwritten .nil)
  rw [List.intercalate_singleton] at hwhole
  refine parse_eq_ok.mpr ⟨.var (String.ofList (a :: w)), ?_, ?_, Phrase.allowed_var _⟩
  · rw [String.toList_ofList, Phrase.tokens]
    exact hwhole
  · rw [Phrase.tree]

namespace Reference
open Text.Marker

/-- A name that reads as an identifier once its braces are dropped and its colons are marked: of
letters, digits, underscores and colons, with no digit in front, and no keyword. -/
def Legible (name : List Char) : Prop :=
  (Piece.reference name).Valid ∧ name.map Char.toLower ∉ Piece.keywords

instance (name : List Char) : Decidable (Legible name) := inferInstanceAs (Decidable (_ ∧ _))

private theorem mem_mark {c : Char} {s : List Char} (h : c ∈ s) (hc : c ≠ ':') : c ∈ mark s :=
  List.mem_flatMap.mpr ⟨c, h, by rw [if_neg hc]; exact List.mem_singleton.mpr rfl⟩

private theorem Legible.isName {name : List Char} (h : Legible name) :
    ∃ a w, mark name = a :: w ∧ Token.IsName a w := by
  obtain ⟨a, w, hmark, ha⟩ := Piece.exists_mark_eq_cons h.1
  have hpart := Piece.isNamePart_mark h.1.2.1
  rw [hmark] at hpart
  refine ⟨a, w, hmark, ha, fun c hc => hpart c (List.mem_cons_of_mem a hc), fun hkeyword => ?_⟩
  by_cases hcolon : ':' ∈ name
  · have hunderscore : '_' ∈ (mark name).map Char.toLower := by
      refine List.mem_map.mpr ⟨'_', List.mem_flatMap.mpr ⟨':', hcolon, ?_⟩, by decide⟩
      decide
    rw [hmark] at hunderscore
    exact (by decide : ∀ word ∈ Piece.keywords, '_' ∉ word) _ hkeyword hunderscore
  · rw [← hmark, mark_eq_self hcolon] at hkeyword
    exact h.2 hkeyword

/-- Only legible names are names with their colons marked. -/
theorem legible_of_isName {name : List Char} {a : Char} {w : List Char} (hmark : mark name = a :: w)
    (h : Token.IsName a w) : Legible name := by
  have hpart : ∀ c ∈ mark name, Token.isNamePart c = true := by
    rw [hmark]
    exact List.forall_mem_cons.mpr ⟨Token.isNamePart_of_isNameStart h.starts, h.goesOn⟩
  refine ⟨⟨?_, fun c hc => ?_, fun c hc => ?_⟩, fun hkeyword => ?_⟩
  · rintro rfl
    cases hmark
  · by_cases hcolon : c = ':'
    · exact .inr hcolon
    · exact .inl (hpart c (mem_mark hc hcolon))
  · obtain ⟨rest, rfl⟩ := List.head?_eq_some_iff.mp hc
    by_cases hcolon : c = ':'
    · subst hcolon
      decide
    · rw [mark_cons, if_neg hcolon] at hmark
      obtain ⟨rfl, -⟩ := List.cons.inj hmark
      rw [← Bool.not_eq_true]
      intro hdigit
      have := h.starts
      rw [Token.isNameStart_eq_false_of_isDigit hdigit] at this
      cases this
  · have hcolon : ':' ∉ name := fun hc =>
      absurd (Piece.isNameStart_of_keyword hkeyword ':' hc) (by decide)
    rw [mark_eq_self hcolon] at hmark
    rw [hmark] at hkeyword
    exact h.noKeyword hkeyword

end Reference

private theorem Normal.form_braced {name : List Char} (h : (Piece.reference name).Valid) :
    form ('{' :: (name ++ ['}'])) = Text.Marker.mark name := by
  have hpart := Piece.isNamePart_mark h.2.1
  have hkept {f : Char → Char} (hf : ∀ c, Token.isNamePart c = true → f c = c) :
      (Text.Marker.mark name).map f = Text.Marker.mark name := by
    rw [List.map_congr_left fun c hc => hf c (hpart c hc), List.map_id']
  have hgroup : group (Text.Marker.mark name) = Text.Marker.mark name := by
    obtain ⟨kept, hkept, rfl | ⟨-, hopen⟩⟩ := group_run (s := []) hpart (fun c hc => by cases hc)
    · simpa [group] using hkept
    · cases hopen
  have hmark : Text.Marker.mark ('{' :: (name ++ ['}'])) = (Piece.reference name).marked.chars :=
    Piece.mark_chars h
  rw [form, hmark, Text.Entity.decode_eq_self (Piece.ampersand_not_mem h), respell]
  rw [Piece.filter_chars h]
  change Text.Marker.mark ((group ((Text.Marker.mark name).map _)).map _) = _
  rw [hkept fun c hc => if_neg (by rintro rfl; exact absurd hc (by decide)), hgroup,
    hkept fun c hc => if_neg (by rintro rfl; exact absurd hc (by decide)),
    Text.Marker.mark_eq_self (Text.Marker.colon_not_mem_mark name)]

namespace Bindings
variable {name : String} {j : Json}

private theorem ofSupplied_single (name : String) (j : Json) :
    ofSupplied (.ofList [(name, j)]) = ofList (j.number?.map (name, ·)).toList := by
  have hpairs : (Std.TreeMap.ofList [(name, j)] : Supplied).toList = [(name, j)] := rfl
  rw [ofSupplied, hpairs]
  cases hj : j.number? <;> simp [hj]

private theorem get?_ofSupplied_single {v : Float} (hj : j.number? = some v)
    (hv : v.isFinite = true) :
    (ofSupplied (.ofList [(name, j)])).get? (Text.markColons name) = some v := by
  rw [ofSupplied_single, hj]
  exact (get?_insert empty name _ v).trans (if_pos ⟨hv, rfl⟩)

private theorem get?_ofSupplied_other {x : String} (hx : x ≠ Text.markColons name) :
    (ofSupplied (.ofList [(name, j)])).get? x = none := by
  rw [ofSupplied_single]
  cases j.number? with
  | none => exact get?_empty x
  | some v =>
    exact (get?_insert empty name x v).trans ((if_neg fun h => hx h.2.symm).trans (get?_empty x))

end Bindings

namespace Pricing
variable {name : String}

def braced (name : String) : String := "\x7b" ++ name ++ "\x7d"

def ofBraced (name : String) (j : Json) : Pricing :=
  ofStored (.single (braced name)) (.ofList [(name, j)])

private theorem toList_braced : (braced name).toList = '{' :: (name.toList ++ ['}']) := by
  simp [braced]

private theorem mem_references_braced (hne : name ≠ "") (hclose : '}' ∉ name.toList) {x : String} :
    x ∈ (Formula.single (.ofStored (braced name))).references ↔ x = Text.markColons name := by
  have hname : name.toList ≠ [] := fun h => hne (String.toList_eq_nil_iff.mp h)
  have hnames : Reference.occurrences ('{' :: (name.toList ++ ['}'])) = [name.toList] :=
    Reference.occurrences_braced hname hclose []
  rw [Formula.references, Formula.searchedText, Reference.mem_namesIn]
  simp only [FormulaText.ofStored, Text.markColons, String.toList_ofList, toList_braced,
    Reference.occurrences_mark, hnames, List.map_cons, List.map_nil, List.mem_singleton,
    exists_eq_left]

private theorem isReady_ofBraced (hne : name ≠ "") (hclose : '}' ∉ name.toList) {j : Json}
    (hj : j.IsNumber) : (ofBraced name j).isReady = true := by
  refine isReady_single_iff.mpr fun x hx => ?_
  obtain rfl := (mem_references_braced hne hclose).mp hx
  exact ⟨name, j, by simp, hj, rfl⟩

private theorem price_of_legible (hclose : '}' ∉ name.toList) (h :
    Reference.Legible name.toList) {j : Json}
    {v : Float} (hj : j.number? = some v) (hv : v.isFinite = true) (hpositive : 0 < v) :
    (ofBraced name j).price = .ok v := by
  have hne : name ≠ "" := by
    rintro rfl
    exact h.1.1 rfl
  obtain ⟨a, w, hmark, hname⟩ := h.isName
  have hnormal : (FormulaText.ofStored (braced name)).normal = String.ofList (a :: w) := by
    rw [FormulaText.ofStored, normalForm, toList_braced, Normal.form_braced h.1, hmark]
  have hmarked : Text.markColons name = String.ofList (a :: w) := by rw [Text.markColons, hmark]
  have hget : (Bindings.ofSupplied (.ofList [(name, j)])).get? (Text.markColons name) = some v :=
    Bindings.get?_ofSupplied_single hj hv
  rw [hmarked] at hget
  rw [ofBraced, price_single_of_isReady (isReady_ofBraced hne hclose ⟨v, hj, hv⟩),
    FormulaText.price_eq, FormulaText.outcome, hnormal, Expr.parse_name hname, ok_bind,
    Expr.eval_var, hget]
  exact asPrice_eq_ok_iff.mpr ⟨rfl, hv, hpositive⟩

private theorem price_of_not_legible (hne : name ≠ "") (hclose : '}' ∉ name.toList)
    (h : ¬Reference.Legible name.toList) {j j' : Json} (hj : j.IsNumber) (hj' : j'.IsNumber) :
    (ofBraced name j).price = (ofBraced name j').price := by
  rw [ofBraced, ofBraced, price_single_of_isReady (isReady_ofBraced hne hclose hj),
    price_single_of_isReady (isReady_ofBraced hne hclose hj')]
  refine FormulaText.price_congr fun x hx => ?_
  obtain ⟨a, w, htext, hname⟩ := Token.isName_of_mem_scan hx
  have hother : x ≠ Text.markColons name := by
    rintro rfl
    rw [Text.markColons, String.toList_ofList] at htext
    exact h (Reference.legible_of_isName htext hname)
  rw [Bindings.get?_ofSupplied_other hother, Bindings.get?_ofSupplied_other hother]

/-- A name in braces denotes the variable it names exactly if it is legible. Any nonempty name
without a closing brace is bound by a number, and the formula is then ready. The number is the
price, if it may be one, where the name reads as an identifier without its braces. Any other name is
read as something else: its number does not even matter. -/
theorem price_braced (name : String) (hne : name ≠ "") (hclose : '}' ∉ name.toList) :
    (∀ j : Json, j.IsNumber → (ofBraced name j).isReady = true) ∧
    (Reference.Legible name.toList ↔ ∀ (j : Json) (v : Float), j.number? = some v →
      v.isFinite = true → 0 < v → (ofBraced name j).price = .ok v) ∧
    (¬Reference.Legible name.toList → ∀ j j' : Json, j.IsNumber → j'.IsNumber →
      (ofBraced name j).price = (ofBraced name j').price) := by
  refine ⟨fun j => isReady_ofBraced hne hclose, ⟨fun h j v => price_of_legible hclose h, fun h => ?_⟩,
    fun h j j' => price_of_not_legible hne hclose h⟩
  by_contra hnot
  have hfinite : (1 : Float).isFinite = true ∧ (2 : Float).isFinite = true := by decide +kernel
  have hone := h (.float 1) 1 rfl hfinite.1 (by decide +kernel)
  have htwo := h (.float 2) 2 rfl hfinite.2 (by decide +kernel)
  have hsame := price_of_not_legible hne hclose hnot
    (Json.isNumber_float hfinite.1) (Json.isNumber_float hfinite.2)
  rw [hone, htwo] at hsame
  exact absurd (Except.ok.inj hsame) (by decide +kernel)

/-- A field name with a colon denotes its variable. -/
theorem price_braced_of_field :
    "a:b" ≠ "" ∧ '}' ∉ "a:b".toList ∧ Reference.Legible "a:b".toList ∧
      (ofBraced "a:b" (.float 2.5)).isReady = true ∧
      (ofBraced "a:b" (.float 2.5)).price = .ok 2.5 := by
  have hlegible : Reference.Legible "a:b".toList := by decide
  obtain ⟨hready, hprice, -⟩ := price_braced "a:b" (by decide) (by decide)
  have hfinite : (2.5 : Float).isFinite = true := by decide +kernel
  exact ⟨by decide, by decide, hlegible, hready _ (Json.isNumber_float hfinite),
    hprice.mp hlegible _ _ rfl hfinite (by decide +kernel)⟩

/-- A name of digits is read as a number, whatever is bound to it. -/
theorem price_of_braced_digit :
    (ofBraced "1" (.integer 2)).isReady = true ∧ (Json.integer 2).number? = some 2 ∧
      (ofBraced "1" (.integer 2)).price = .ok 1 ∧ (ofBraced "1" (.integer 2)).price ≠ .ok 2 := by
  decide +kernel

end Pricing
end PriceFormula
