import PriceFormula.Text.Hex
import PriceFormula.Text.Segment

/-! HTML entities in stored formula text, by name or by code point. -/

namespace PriceFormula.Text

namespace Entity

def named (name : List Char) : Option Char :=
  if name = ['a', 'm', 'p'] then some '&'
  else if name = ['l', 't'] then some '<'
  else if name = ['g', 't'] then some '>'
  else if name = ['q', 'u', 'o', 't'] then some '"'
  else if name = ['a', 'p', 'o', 's'] then some '\''
  else if name = ['n', 'b', 's', 'p'] then some '\u00a0'
  else none

def coded (code : Nat) : Option Char :=
  if code.isValidChar then some (Char.ofNat code) else none

/-- The run of characters with property `p` at the head of a text, if it has at most `most`
characters, at least one, and a semicolon follows. -/
def closedRun (p : Char → Bool) (most : Nat) (s : List Char) : Option (List Char) :=
  let run := s.takeWhile p
  if 0 < run.length ∧ run.length ≤ most ∧ (s.drop run.length).head? = some ';' then some run
  else none

/-- The entity whose text follows an ampersand: its character and the length of that text, the
semicolon included. Decimal code points have up to seven digits, hexadecimal ones up to six. -/
def afterAmpersand (s : List Char) : Option (Char × Nat) :=
  match s with
  | '#' :: mark :: tail =>
    if mark = 'x' ∨ mark = 'X' then do
      let run ← closedRun (fun c => (hexDigit? c).isSome) 6 tail
      let c ← coded (hexValue run)
      some (c, run.length + 3)
    else do
      let run ← closedRun Char.isDigit 7 (mark :: tail)
      let c ← coded (Nat.ofDigitChars 10 run 0)
      some (c, run.length + 2)
  | _ => do
    let run ← closedRun Char.isAlpha s.length s
    let c ← named run
    some (c, run.length + 1)

def find : Finder Char
  | '&', rest => afterAmpersand rest
  | _, _ => none

/-- Decodes every entity once. What is no entity, or names no character, stays as it is. -/
def decode (s : List Char) : List Char :=
  (Segment.cut find s).map fun
    | .found c _ => c
    | .plain c => c

end Entity

def decodeEntities (s : String) : String := String.ofList (Entity.decode s.toList)

end PriceFormula.Text
