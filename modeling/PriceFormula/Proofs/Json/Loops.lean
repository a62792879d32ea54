import PriceFormula.Proofs.Json.Numbers
import PriceFormula.Proofs.Json.Strings

namespace PriceFormula.Json

theorem writeItems_cons (j : Json) (js : List Json) :
    writeItems (j :: js) = write j ++ js.flatMap fun j => ',' :: write j := by
  induction js generalizing j with
  | nil => rw [writeItems, List.flatMap_nil, List.append_nil]
  | cons k js ih =>
    rw [writeItems, ih, List.flatMap_cons, List.cons_append]
    nofun

def writtenMember (m : String × Json) : List Char := writtenString m.1 ++ ':' :: write m.2

theorem writeMembers_cons (m : String × Json) (ms : List (String × Json)) :
    writeMembers (m :: ms) = writtenMember m ++ ms.flatMap fun m => ',' :: writtenMember m := by
  induction ms generalizing m with
  | nil => rw [writeMembers, List.flatMap_nil, List.append_nil, writtenMember]
  | cons n ms ih =>
    have hstep : writeMembers (m :: n :: ms) = writtenMember m ++ ',' :: writeMembers (n :: ms) := by
      rw [writeMembers, writtenMember, List.append_assoc, List.cons_append]
      nofun
    rw [hstep, ih, List.flatMap_cons, List.cons_append]

private theorem length_le_flatMap {α β : Type} (c : β) (text : α → List β) (xs : List α) :
    xs.length ≤ (xs.flatMap fun x => c :: text x).length := by
  induction xs with
  | nil => exact Nat.zero_le _
  | cons x xs ih =>
    rw [List.flatMap_cons, List.length_append, List.length_cons, List.length_cons]
    omega

theorem length_le_flatMap_of_mem {α β : Type} (c : β) (text : α → List β) {x : α} {xs : List α}
    (h : x ∈ xs) : (text x).length ≤ (xs.flatMap fun x => c :: text x).length := by
  induction h with
  | head xs =>
    rw [List.flatMap_cons, List.length_append, List.length_cons]
    omega
  | tail y _ ih =>
    rw [List.flatMap_cons, List.length_append]
    omega

namespace Reader

def isBlank (c : Char) : Bool := c = ' ' ∨ c = '\n' ∨ c = '\t' ∨ c = '\r'

theorem skipBlank_cons {c : Char} (h : isBlank c = false) (s : List Char) :
    skipBlank (c :: s) = c :: s :=
  List.dropWhile_cons_of_neg (by simpa [isBlank] using h)

def StartsItem (text : List Char) : Prop :=
  ∃ c s, text = c :: s ∧ isBlank c = false ∧ c ≠ ']'

theorem startsItem_of_digit {c : Char} (hc : c.isDigit = true) (s : List Char) :
    StartsItem (c :: s) := by
  refine ⟨c, s, rfl, ?_, ?_⟩
  · have hne (b : Char) (hb : b.isDigit = false) : c ≠ b := fun h => by
      rw [h, hb] at hc
      nomatch hc
    simp [isBlank, hne]
  · rintro rfl
    nomatch hc

private theorem startsItem_signedText {p : NumberParts} (hp : p.WellFormed) (negative : Bool) :
    StartsItem (NumberParts.signedText negative p) := by
  cases negative with
  | true => exact ⟨'-', _, rfl, by decide, by decide⟩
  | false =>
    obtain ⟨c, s, htext, hdigit⟩ := hp.exists_text_eq
    rw [NumberParts.signedText, if_neg Bool.false_ne_true, htext]
    exact startsItem_of_digit hdigit s

private theorem startsItem_write (j : Json) : StartsItem (write j) := by
  cases j with
  | null => exact ⟨'n', _, rfl, by decide, by decide⟩
  | bool b =>
    cases b with
    | true => exact ⟨'t', _, rfl, by decide, by decide⟩
    | false => exact ⟨'f', _, rfl, by decide, by decide⟩
  | integer n =>
    rw [write, writtenInteger_eq]
    exact startsItem_signedText (wellFormed_wholeParts _) _
  | float x =>
    rw [write]
    by_cases hx : x.isFinite = true
    · obtain ⟨negative, p, hp, htext⟩ := exists_writtenFloat hx
      rw [htext]
      exact startsItem_signedText hp negative
    · rw [writtenFloat, if_neg hx]
      exact ⟨'n', _, rfl, by decide, by decide⟩
  | string s => exact ⟨'"', _, by rw [write, writtenString], by decide, by decide⟩
  | array js => exact ⟨'[', _, by rw [write], by decide, by decide⟩
  | object ms => exact ⟨'\x7b', _, by rw [write], by decide, by decide⟩

section Items
variable {α : Type} {item : Reader α}

/-- A reader takes the text of a value off any text behind it, and gives `x` for it. -/
def Takes (item : Reader α) (j : Json) (x : α) : Prop :=
  ∀ rest, Delimited rest → item (write j ++ rest) = .ok (x, rest)

private theorem items_close (turns : Nat) (first : Bool) (rest : List Char) :
    items item (turns + 1) first (']' :: rest) = .ok ([], rest) := rfl

private theorem item?_write (j : Json) (rest : List Char) :
    item? true (write j ++ rest) = .ok (some (write j ++ rest)) ∧
      item? false (',' :: (write j ++ rest)) = .ok (some (write j ++ rest)) := by
  obtain ⟨c, s, htext, hblank, hclose⟩ := startsItem_write j
  have hskip := skipBlank_cons hblank (s ++ rest)
  rw [htext, List.cons_append]
  constructor
  · unfold item?
    rw [hskip]
    exact (if_neg hclose).trans (if_pos rfl)
  · have hcomma : skipBlank (',' :: c :: (s ++ rest)) = ',' :: c :: (s ++ rest) :=
      skipBlank_cons (by decide) _
    unfold item?
    rw [hcomma]
    simp only [hskip, if_neg hclose]
    rfl

private theorem items_next {j : Json} {first : Bool} {s rest : List Char} {x : α}
    (hs : item? first s = .ok (some (write j ++ rest)))
    (hitem : item (write j ++ rest) = .ok (x, rest)) (turns : Nat) :
    items item (turns + 1) first s =
      (items item turns false rest).map fun r => (x :: r.1, r.2) := by
  rw [items, hs, ok_bind]
  simp only [hitem, ok_bind]
  cases items item turns false rest <;> rfl

private theorem delimited_items (js : List Json) (rest : List Char) :
    Delimited ((js.flatMap fun j => ',' :: write j) ++ ']' :: rest) := by
  cases js with
  | nil => exact delimited_cons (by decide) _
  | cons j js => exact delimited_cons (by decide) _

private theorem items_written {js : List Json} {f : Json → α} (hitem : ∀ j ∈ js, Takes item j (f j))
    (rest : List Char) {turns : Nat} (hturns : js.length < turns) :
    items item turns false ((js.flatMap fun j => ',' :: write j) ++ ']' :: rest) =
      .ok (js.map f, rest) := by
  induction js generalizing turns with
  | nil =>
    obtain ⟨turns, rfl⟩ := Nat.exists_eq_add_of_lt hturns
    exact items_close _ _ _
  | cons j js ih =>
    obtain ⟨turns, rfl⟩ : ∃ n, turns = n + 1 := ⟨turns - 1, by omega⟩
    have hrest := ih (fun k hk => hitem k (List.mem_cons_of_mem j hk))
      (Nat.lt_of_succ_lt_succ hturns)
    have hfirst := hitem j List.mem_cons_self _ (delimited_items js rest)
    rw [List.flatMap_cons, List.append_assoc, List.cons_append,
      items_next (item?_write j _).2 hfirst, hrest]
    rfl

/-- Items that can be taken one by one can be read as an array. -/
theorem arrayTail_written {js : List Json} {f : Json → α} (hitem : ∀ j ∈ js, Takes item j (f j))
    (rest : List Char) : arrayTail item (writeItems js ++ ']' :: rest) = .ok (js.map f, rest) := by
  cases js with
  | nil => exact items_close _ _ _
  | cons j js =>
    have hfirst := hitem j List.mem_cons_self _ (delimited_items js rest)
    have hlength := length_le_flatMap ',' write js
    have hlast := items_written (fun k hk => hitem k (List.mem_cons_of_mem j hk)) rest (by
      rw [writeItems_cons, List.length_append, List.length_append, List.length_cons]
      omega : js.length < (writeItems (j :: js) ++ ']' :: rest).length)
    rw [arrayTail]
    rw [writeItems_cons, List.append_assoc] at hlast ⊢
    rw [items_next (item?_write j _).1 hfirst, hlast]
    rfl

/-- What holds of every item that is taken holds of all items of an array. -/
theorem forall_mem_items {P : α → Prop} (hitem : ∀ s x rest, item s = .ok (x, rest) → P x)
    {turns : Nat} {first : Bool} {s rest : List Char} {xs : List α}
    (h : items item turns first s = .ok (xs, rest)) : ∀ x ∈ xs, P x := by
  induction turns generalizing first s rest xs with
  | zero => cases h
  | succ turns ih =>
    obtain ⟨next, -, h⟩ := bind_eq_ok.mp h
    cases next with
    | none =>
      obtain ⟨_, -, h⟩ := bind_eq_ok.mp h
      obtain ⟨rfl, -⟩ := Prod.mk.inj (Except.ok.inj h)
      intro x hx
      cases hx
    | some s =>
      obtain ⟨head, hhead, h⟩ := bind_eq_ok.mp h
      obtain ⟨⟨tail, _⟩, htail, h⟩ := bind_eq_ok.mp h
      obtain ⟨rfl, -⟩ := Prod.mk.inj (Except.ok.inj h)
      exact List.forall_mem_cons.mpr ⟨hitem _ _ _ hhead, ih htail⟩

end Items

section Members
variable {σ : Type} {keep : Bool} {field : σ → String → Except Fault (Reader σ)}

/-- A run over members: each key is accepted, and its reader takes the text of the value off any
text behind it. -/
inductive Feeds (field : σ → String → Except Fault (Reader σ)) : σ → List (String × Json) → σ → Prop
  | nil (g : σ) : Feeds field g [] g
  | cons {g g' g'' : σ} {m : String × Json} {ms : List (String × Json)} {read : Reader σ}
      (hfield : field g m.1 = .ok read)
      (hread : Takes read m.2 g')
      (hrest : Feeds field g' ms g'') : Feeds field g (m :: ms) g''

/-- Members under other keys, each of which leaves what was gathered as it is, may stand anywhere.
-/
theorem feeds_of_filter {own : String × Json → Bool}
    (hother : ∀ g m, own m = false → ∃ read, field g m.1 = .ok read ∧ Takes read m.2 g)
    {ms : List (String × Json)} {g g' : σ} (h : Feeds field g (ms.filter own) g') :
    Feeds field g ms g' := by
  induction ms generalizing g with
  | nil => exact h
  | cons m ms ih =>
    by_cases hm : own m = true
    · rw [List.filter_cons_of_pos hm] at h
      cases h with
      | cons hfield hread hrest => exact .cons hfield hread (ih hrest)
    · rw [List.filter_cons_of_neg hm] at h
      obtain ⟨read, hfield, hread⟩ := hother g m (Bool.eq_false_iff.mpr hm)
      exact .cons hfield hread (ih h)

private theorem members_close (turns : Nat) (first : Bool) (g : σ) (rest : List Char) :
    members keep field (turns + 1) first g ('\x7d' :: rest) = .ok (g, rest) := rfl

private theorem member?_written (m : String × Json) (rest : List Char) :
    member? true (writtenMember m ++ rest) = .ok (.inl (writtenMember m ++ rest)) ∧
      member? false (',' :: (writtenMember m ++ rest)) = .ok (.inl (writtenMember m ++ rest)) :=
  ⟨rfl, rfl⟩

private theorem key_written (name : String) (rest : List Char) :
    key keep (writtenString name ++ rest) = .ok (name, rest) := by
  rw [writtenString, List.cons_append, List.append_assoc]
  exact stringTail_written keep name rest

private theorem members_next {m : String × Json} {first : Bool} {s rest : List Char} {g g' : σ}
    {read : Reader σ} (hs : member? first s = .ok (.inl (writtenMember m ++ rest)))
    (hfield : field g m.1 = .ok read) (hread : read (write m.2 ++ rest) = .ok (g', rest))
    (turns : Nat) :
    members keep field (turns + 1) first g s = members keep field turns false g' rest := by
  have hcolon : colon (':' :: (write m.2 ++ rest)) = .ok (write m.2 ++ rest) := rfl
  rw [members, hs, ok_bind]
  simp only
  rw [writtenMember, List.append_assoc, key_written, ok_bind]
  simp only
  rw [hfield, ok_bind, List.cons_append, hcolon, ok_bind, hread]
  rfl

private theorem delimited_members (ms : List (String × Json)) (rest : List Char) :
    Delimited ((ms.flatMap fun m => ',' :: writtenMember m) ++ '\x7d' :: rest) := by
  cases ms with
  | nil => exact delimited_cons (by decide) _
  | cons m ms => exact delimited_cons (by decide) _

private theorem members_written {ms : List (String × Json)} {g g' : σ} (h : Feeds field g ms g')
    (rest : List Char) {turns : Nat} (hturns : ms.length < turns) :
    members keep field turns false g
      ((ms.flatMap fun m => ',' :: writtenMember m) ++ '\x7d' :: rest) = .ok (g', rest) := by
  induction h generalizing turns with
  | nil g =>
    obtain ⟨turns, rfl⟩ := Nat.exists_eq_add_of_lt hturns
    exact members_close _ _ _ _
  | @cons g g' g'' m ms read hfield hread _ ih =>
    obtain ⟨turns, rfl⟩ : ∃ n, turns = n + 1 := ⟨turns - 1, by omega⟩
    rw [List.flatMap_cons, List.append_assoc, List.cons_append,
      members_next (member?_written m _).2 hfield (hread _ (delimited_members ms rest))]
    exact ih (Nat.lt_of_succ_lt_succ hturns)

/-- A run over the members is what reading their object does. -/
theorem objectTail_written {ms : List (String × Json)} {g g' : σ} (h : Feeds field g ms g')
    (rest : List Char) :
    objectTail keep field g (writeMembers ms ++ '\x7d' :: rest) = .ok (g', rest) := by
  cases h with
  | nil => exact members_close _ _ _ _
  | @cons _ g₁ _ m ms read hfield hread hrest =>
    have hlength := length_le_flatMap ',' writtenMember ms
    have hlast := @members_written _ keep _ _ _ _ hrest rest _ (by
      rw [writeMembers_cons, List.length_append, List.length_append, List.length_cons]
      omega : ms.length < (writeMembers (m :: ms) ++ '\x7d' :: rest).length)
    rw [objectTail]
    rw [writeMembers_cons, List.append_assoc] at hlast ⊢
    rw [members_next (member?_written m _).1 hfield (hread _ (delimited_members ms rest))]
    exact hlast

/-- A reader of objects gives what the run over the members comes to. -/
theorem complete_object {α : Type} {read : Reader α} {a : α} {ms : List (String × Json)} {g g' : σ}
    (h : Feeds field g ms g')
    (hread : ∀ s, (∀ keep, objectTail keep field g s = .ok (g', [])) →
      read ('\x7b' :: s) = .ok (a, [])) :
    complete read (object ms).text = .ok a := by
  have hobject := hread _ fun keep => objectTail_written h []
  rw [complete, Json.text, String.toList_ofList, write, hobject]
  rfl

/-- What every member preserves holds of all that is gathered, if it holds at the start. -/
theorem members_invariant {I : σ → Prop}
    (hfield : ∀ g name read s g' rest, I g → field g name = .ok read → read s = .ok (g', rest) →
      I g')
    {turns : Nat} {first : Bool} {g g' : σ} {s rest : List Char} (hg : I g)
    (h : members keep field turns first g s = .ok (g', rest)) : I g' := by
  induction turns generalizing first g s with
  | zero => cases h
  | succ turns ih =>
    obtain ⟨next, -, h⟩ := bind_eq_ok.mp h
    cases next with
    | inr s =>
      obtain ⟨rfl, -⟩ := Prod.mk.inj (Except.ok.inj h)
      exact hg
    | inl s =>
      obtain ⟨name, -, h⟩ := bind_eq_ok.mp h
      obtain ⟨read, hread, h⟩ := bind_eq_ok.mp h
      obtain ⟨_, -, h⟩ := bind_eq_ok.mp h
      obtain ⟨⟨gathered, _⟩, hgathered, h⟩ := bind_eq_ok.mp h
      exact ih (hfield _ _ _ _ _ _ hg hread hgathered) h

end Members

end Reader
end PriceFormula.Json
