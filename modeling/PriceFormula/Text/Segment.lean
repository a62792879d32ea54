/-! A text cut into segments: wherever a finder recognises something, the text it covers is one
segment; every other character stands alone. Cutting loses nothing and reads nothing twice. -/

namespace PriceFormula.Text

inductive Segment (α : Type) where
  | found (item : α) (text : List Char)
  | plain (char : Char)

/-- What a finder may answer for a character and the text after it: what it recognises there, and
how many of the characters after the first belong to it. -/
abbrev Finder (α : Type) := Char → List Char → Option (α × Nat)

namespace Segment

variable {α : Type}

def chars : Segment α → List Char
  | found _ text => text
  | plain c => [c]

def cutFrom (find : Finder α) : Nat → List Char → List (Segment α)
  | _, [] => []
  | skip + 1, _ :: rest => cutFrom find skip rest
  | 0, c :: rest =>
    match find c rest with
    | some (item, more) => found item (c :: rest.take more) :: cutFrom find more rest
    | none => plain c :: cutFrom find 0 rest

def cut (find : Finder α) (s : List Char) : List (Segment α) := cutFrom find 0 s

private theorem cutFrom_eq_cut_drop (find : Finder α) (skip : Nat) (s : List Char) :
    cutFrom find skip s = cut find (s.drop skip) := by
  induction s generalizing skip with
  | nil => cases skip <;> simp [cut, cutFrom]
  | cons c rest ih =>
    cases skip with
    | zero => rfl
    | succ n => simp [cutFrom, ih]

@[simp] theorem cut_nil (find : Finder α) : cut find [] = [] := rfl

theorem cut_of_found {find : Finder α} {c : Char} {rest : List Char} {item : α} {more : Nat}
    (h : find c rest = some (item, more)) :
    cut find (c :: rest) = found item (c :: rest.take more) :: cut find (rest.drop more) := by
  rw [← cutFrom_eq_cut_drop]
  simp [cut, cutFrom, h]

theorem cut_of_none {find : Finder α} {c : Char} {rest : List Char} (h : find c rest = none) :
    cut find (c :: rest) = plain c :: cut find rest := by
  simp [cut, cutFrom, h]

/-- The segments of a text put together are the text. -/
theorem flatMap_chars_cut (find : Finder α) (s : List Char) : (cut find s).flatMap chars = s := by
  suffices h : ∀ skip, (cutFrom find skip s).flatMap chars = s.drop skip from h 0
  induction s with
  | nil => intro skip; cases skip <;> simp [cutFrom]
  | cons c rest ih =>
    intro skip
    cases skip with
    | succ n => simpa [cutFrom] using ih n
    | zero =>
      rw [cutFrom]
      split <;> simp [chars, ih]

/-- Induction over a text as a finder cuts it. -/
theorem induct (find : Finder α) {motive : List Char → Prop}
    (nil : motive [])
    (found : ∀ c rest item more, find c rest = some (item, more) → motive (rest.drop more) →
      motive (c :: rest))
    (plain : ∀ c rest, find c rest = none → motive rest → motive (c :: rest)) (s : List Char) :
    motive s := by
  induction hlen : s.length using Nat.strongRecOn generalizing s with
  | ind n ih =>
    subst hlen
    cases s with
    | nil => exact nil
    | cons c rest =>
      cases hfind : find c rest with
      | none => exact plain c rest hfind (ih _ (Nat.lt_succ_self _) rest rfl)
      | some hit =>
        refine found c rest hit.1 hit.2 hfind (ih _ ?_ _ rfl)
        rw [List.length_drop, List.length_cons]
        exact Nat.lt_succ_of_le (Nat.sub_le _ _)

end Segment

def width (s : List Char) : Nat := s.foldr (fun c bytes => c.utf8Size + bytes) 0

theorem width_cons (c : Char) (s : List Char) : width (c :: s) = c.utf8Size + width s := rfl

theorem width_append (s s' : List Char) : width (s ++ s') = width s + width s' := by
  induction s with
  | nil => exact (Nat.zero_add _).symm
  | cons c s ih => rw [List.cons_append, width_cons, width_cons, ih, Nat.add_assoc]

theorem utf8ByteSize_ofList (s : List Char) : (String.ofList s).utf8ByteSize = width s := by
  induction s with
  | nil => rfl
  | cons c s ih => simp [width_cons, ih]

def replace (pattern replacement : List Char) (s : List Char) : List Char :=
  (Segment.cut occurrence s).flatMap fun
    | .found _ _ => replacement
    | .plain c => [c]
where
  occurrence (c : Char) (rest : List Char) : Option (Unit × Nat) :=
    if pattern.isPrefixOf (c :: rest) then some ((), pattern.length - 1) else none

end PriceFormula.Text
