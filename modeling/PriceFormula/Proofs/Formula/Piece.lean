import PriceFormula.Proofs.Formula.Respelling

namespace PriceFormula

inductive Piece where
  | reference (name : List Char)
  | word (letters : List Char)
  /-- The name of a function with the parenthesis that opens its arguments. -/
  | call (name : List Char)
  /-- A digit, a blank, an operator, a point or a mark of punctuation. -/
  | sign (char : Char)

namespace Piece

def keywords : List (List Char) :=
  [['t', 'r', 'u', 'e'], ['f', 'a', 'l', 's', 'e'], ['a', 'n', 'd'], ['o', 'r'], ['n', 'o', 't']]

def signs : List Char :=
  ['+', '-', '*', '/', '%', '(', ')', '.', ',', ';', '<', '>', '=', '!', '|']

def chars : Piece → List Char
  | reference name => '{' :: (name ++ ['}'])
  | word letters => letters
  | call name => name ++ ['(']
  | sign c => [c]

def bare : Piece → List Char
  | reference name => name
  | p => p.chars

private def decidableForallSome {α : Type} (o : Option α) (P : α → Prop) [DecidablePred P] :
    Decidable (∀ a, o = some a → P a) :=
  match o with
  | none => isTrue nofun
  | some a => decidable_of_iff (P a) ⟨fun h _ hb => Option.some.inj hb ▸ h, fun h => h a rfl⟩

/-- What a piece may be. A reference starts with no digit and is of letters, digits, underscores
and colons; words and function names may be in any mixture of cases. -/
def Valid : Piece → Prop
  | reference name => name ≠ [] ∧ (∀ c ∈ name, Token.isNamePart c = true ∨ c = ':') ∧
      ∀ c, name.head? = some c → c.isDigit = false
  | word letters => letters.map Char.toLower ∈ keywords
  | call name => name.map Char.toLower ∈ Function.all.map fun f => f.name.toList
  | sign c => c.isDigit = true ∨ Text.isBlank c = true ∨ c ∈ signs

instance (p : Piece) : Decidable p.Valid :=
  match p with
  | reference name =>
    have := List.decidableBAll (fun c => Token.isNamePart c = true ∨ c = ':') name
    have := decidableForallSome name.head? fun c => c.isDigit = false
    inferInstanceAs (Decidable (name ≠ [] ∧
      (∀ c ∈ name, Token.isNamePart c = true ∨ c = ':') ∧
        ∀ c, name.head? = some c → c.isDigit = false))
  | word letters => inferInstanceAs (Decidable (letters.map Char.toLower ∈ keywords))
  | call name => inferInstanceAs (Decidable (name.map Char.toLower ∈
      Function.all.map fun f => f.name.toList))
  | sign c => inferInstanceAs (Decidable (c.isDigit = true ∨ Text.isBlank c = true ∨ c ∈ signs))

def joins (c : Char) : Bool := Token.isNamePart c || c = '{' || c = '}'

def MayFollow : Piece → Char → Prop
  | sign _, _ => True
  | _, c => joins c = false ∧ c ≠ '.'

def MayPrecede : Piece → Char → Prop
  | reference _, c => joins c = false ∧ c ≠ '.'
  | word _, c => joins c = false
  | _, _ => True

instance (p : Piece) (c : Char) : Decidable (p.MayFollow c) :=
  match p with
  | sign _ => inferInstanceAs (Decidable True)
  | reference _ | word _ | call _ => inferInstanceAs (Decidable (joins c = false ∧ c ≠ '.'))

instance (p : Piece) (c : Char) : Decidable (p.MayPrecede c) :=
  match p with
  | reference _ => inferInstanceAs (Decidable (joins c = false ∧ c ≠ '.'))
  | word _ => inferInstanceAs (Decidable (joins c = false))
  | call _ | sign _ => inferInstanceAs (Decidable True)

def Apart (p q : Piece) : Prop :=
  (∀ c, p.chars.getLast? = some c → q.MayFollow c) ∧ ∀ c, q.chars.head? = some c → p.MayPrecede c

instance (p q : Piece) : Decidable (p.Apart q) :=
  have := decidableForallSome p.chars.getLast? q.MayFollow
  have := decidableForallSome q.chars.head? p.MayPrecede
  inferInstanceAs (Decidable ((∀ c, p.chars.getLast? = some c → q.MayFollow c) ∧
    ∀ c, q.chars.head? = some c → p.MayPrecede c))

def marked : Piece → Piece
  | reference name => reference (Text.Marker.mark name)
  | p => p

def name? : Piece → Option (List Char)
  | reference name => some name
  | _ => none

end Piece

/-- Pieces that keep apart, in the order of the text. -/
inductive WellSpaced : List Piece → Prop
  | nil : WellSpaced []
  | cons {p : Piece} {ps : List Piece} : p.Valid → (∀ q, ps.head? = some q → p.Apart q) →
    WellSpaced ps → WellSpaced (p :: ps)

instance : DecidablePred WellSpaced
  | [] => isTrue .nil
  | p :: ps =>
    have := instDecidablePredListPieceWellSpaced ps
    have := Piece.decidableForallSome ps.head? p.Apart
    decidable_of_iff (p.Valid ∧ (∀ q, ps.head? = some q → p.Apart q) ∧ WellSpaced ps)
      ⟨fun ⟨hp, hapart, hps⟩ => .cons hp hapart hps, fun
        | .cons hp hapart hps => ⟨hp, hapart, hps⟩⟩

namespace Piece

private theorem isAlpha_of_toLower {c : Char} (h : c.toLower.isAlpha = true) :
    c.isAlpha = true := by
  delta Char.toLower at h
  split at h
  · rename_i hupper
    have hc : c.isUpper = true := decide_eq_true (by simpa using hupper)
    exact Bool.or_eq_true_iff.mpr (.inl hc)
  · exact h

private theorem isNameStart_of_map_toLower {w v : List Char} (hv : ∀ c ∈ v, c.isAlpha = true)
    (h : v = w.map Char.toLower) : ∀ c ∈ w, Token.isNameStart c = true := by
  intro c hc
  rw [Token.isNameStart, isAlpha_of_toLower (hv _ (h ▸ List.mem_map_of_mem hc)), Bool.true_or]

theorem isNameStart_of_keyword {w : List Char} (h : w.map Char.toLower ∈ keywords) :
    ∀ c ∈ w, Token.isNameStart c = true :=
  have hletters : keywords.all (fun v => v.all Char.isAlpha) = true := by decide
  isNameStart_of_map_toLower (List.all_eq_true.mp (List.all_eq_true.mp hletters _ h)) rfl

theorem isNameStart_of_function {w : List Char} {f : Function}
    (h : f.name.toList = w.map Char.toLower) : ∀ c ∈ w, Token.isNameStart c = true :=
  isNameStart_of_map_toLower (List.all_eq_true.mp (by cases f <;> decide)) h

theorem ofWord_of_keyword {w : List Char} (h : w.map Char.toLower ∈ keywords) (x : String) :
    Token.ofWord w ≠ .identifier x := by
  simp only [keywords, List.mem_cons, List.not_mem_nil, or_false] at h
  rw [Token.ofWord]
  rcases h with h | h | h | h | h <;> rw [h] <;> simp

theorem isNameStart_sign {c : Char} (h : (sign c).Valid) : Token.isNameStart c = false := by
  rcases h with h | h | h
  · exact Token.isNameStart_eq_false_of_isDigit h
  · apply Token.isNameStart_eq_false_of_bounds
    simp only [Text.isBlank, Bool.or_eq_true, Bool.and_eq_true, decide_eq_true_eq] at h
    omega
  · have hsigns : signs.all (fun c => !Token.isNameStart c) = true := by decide
    simpa using List.all_eq_true.mp hsigns c h

theorem name?_marked_eq_some {p : Piece} {name : List Char} (h : p.marked.name? = some name) :
    ∃ stated, p = reference stated ∧ name = Text.Marker.mark stated := by
  cases p with
  | reference stated => exact ⟨stated, rfl, (Option.some.inj h).symm⟩
  | word letters => nomatch h
  | call called => nomatch h
  | sign c => nomatch h

theorem chars_ne_nil {p : Piece} (hp : p.Valid) : p.chars ≠ [] := by
  cases p with
  | reference name => exact List.cons_ne_nil _ _
  | word letters =>
    rintro rfl
    exact (by decide : [] ∉ keywords) hp
  | call name => exact List.append_ne_nil_of_right_ne_nil _ (List.cons_ne_nil _ _)
  | sign c => exact List.cons_ne_nil _ _

def reserved : List Char := ['{', '}', ':', '&']

private theorem not_isNamePart_of_reserved {c : Char} (h : c ∈ reserved) :
    Token.isNamePart c = false := by
  have hreserved : reserved.all (fun c => !Token.isNamePart c) = true := by decide
  simpa using List.all_eq_true.mp hreserved c h

private theorem not_valid_of_reserved {c : Char} (h : c ∈ reserved) : ¬(sign c).Valid := by
  have hreserved : reserved.all (fun c => !decide (sign c).Valid) = true := by decide
  simpa using List.all_eq_true.mp hreserved c h

/-- Outside references no character is reserved. -/
theorem not_reserved {p : Piece} (hp : p.Valid) (hname : p.name? = none) :
    ∀ c ∈ p.chars, c ∉ reserved := by
  have hletters {w : List Char} (hw : ∀ c ∈ w, Token.isNameStart c = true) :
      ∀ c ∈ w, c ∉ reserved := fun c hc hr => by
    have := Token.isNamePart_of_isNameStart (hw c hc)
    rw [not_isNamePart_of_reserved hr] at this
    nomatch this
  cases p with
  | reference name => nomatch hname
  | word letters => exact hletters (isNameStart_of_keyword hp)
  | call name =>
    obtain ⟨f, -, hf⟩ := List.mem_map.mp hp
    refine List.forall_mem_append.mpr ⟨hletters (isNameStart_of_function hf), ?_⟩
    simp [reserved]
  | sign c =>
    exact List.forall_mem_singleton.mpr fun hr => not_valid_of_reserved hr hp

/-- Marked names are made of name characters. -/
theorem isNamePart_mark {name : List Char}
    (h : ∀ c ∈ name, Token.isNamePart c = true ∨ c = ':') :
    ∀ c ∈ Text.Marker.mark name, Token.isNamePart c = true := by
  intro c hc
  obtain ⟨d, hd, hc⟩ := List.mem_flatMap.mp hc
  split at hc
  · exact List.all_eq_true.mp (by decide) c hc
  · rename_i hcolon
    obtain rfl := List.mem_singleton.mp hc
    exact (h c hd).resolve_right hcolon

/-- A marked name starts like an identifier. -/
theorem exists_mark_eq_cons {name : List Char} (h : (reference name).Valid) :
    ∃ a w, Text.Marker.mark name = a :: w ∧ Token.isNameStart a = true := by
  obtain ⟨hne, hpart, hdigit⟩ := h
  cases name with
  | nil => exact absurd rfl hne
  | cons c name =>
    rw [Text.Marker.mark_cons]
    split
    · exact ⟨_, _, rfl, by decide⟩
    · rename_i hcolon
      exact ⟨c, _, rfl, Token.isNameStart_of_not_isDigit
        ((hpart c List.mem_cons_self).resolve_right hcolon) (hdigit c rfl)⟩

theorem mark_chars {p : Piece} (hp : p.Valid) : Text.Marker.mark p.chars = p.marked.chars := by
  have hplain (hname : p.name? = none) : Text.Marker.mark p.chars = p.chars :=
    Text.Marker.mark_eq_self fun h => not_reserved hp hname _ h (by decide)
  cases p with
  | reference name =>
    rw [chars, Text.Marker.mark_cons, Text.Marker.mark_append]
    rfl
  | word letters => exact hplain rfl
  | call name => exact hplain rfl
  | sign c => exact hplain rfl

private theorem not_reserved_mark {name : List Char} (h : (reference name).Valid) :
    ∀ c ∈ Text.Marker.mark name, c ∉ reserved := fun c hc hr => by
  have := isNamePart_mark h.2.1 c hc
  rw [not_isNamePart_of_reserved hr] at this
  nomatch this

theorem ampersand_not_mem {p : Piece} (hp : p.Valid) : '&' ∉ p.marked.chars := by
  have hplain (hname : p.name? = none) : '&' ∉ p.chars :=
    fun hc => not_reserved hp hname _ hc (by decide)
  cases p with
  | reference name =>
    intro hc
    rcases List.mem_cons.mp hc with hc | hc
    · nomatch hc
    · rcases List.mem_append.mp hc with hc | hc
      · exact not_reserved_mark hp _ hc (by decide)
      · exact absurd hc (by decide)
  | word letters => exact hplain rfl
  | call name => exact hplain rfl
  | sign c => exact hplain rfl

theorem filter_chars {p : Piece} (hp : p.Valid) :
    (p.marked.chars.filter fun c => c ≠ '{' ∧ c ≠ '}') = p.marked.bare := by
  have hkept {s : List Char} (hs : ∀ c ∈ s, c ∉ reserved) :
      (s.filter fun c => c ≠ '{' ∧ c ≠ '}') = s := by
    rw [List.filter_eq_self]
    intro c hc
    have := hs c hc
    simp only [reserved, List.mem_cons, not_or] at this
    exact decide_eq_true ⟨this.1, this.2.1⟩
  cases p with
  | reference name =>
    have hlist : (reference name).marked.chars =
        ['{'] ++ (Text.Marker.mark name ++ ['}']) := rfl
    rw [hlist, List.filter_append, List.filter_append, hkept (not_reserved_mark hp)]
    exact List.append_nil _
  | word letters => exact hkept (not_reserved hp rfl)
  | call name => exact hkept (not_reserved hp rfl)
  | sign c => exact hkept (not_reserved hp rfl)

end Piece
end PriceFormula
