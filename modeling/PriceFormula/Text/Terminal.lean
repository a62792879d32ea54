/-! Text for terminals, and what is left of it elsewhere. Control sequences start with the escape
character. They are followed as a terminal follows them and dropped, as are control characters
that are no white space. -/

namespace PriceFormula.Text.Terminal

inductive Place where
  | ground
  | escape
  | escapeIntermediate
  | control
  | deviceEntry
  | deviceParameter
  | deviceIntermediate
  /-- In the text of a device control string. -/
  | device
  /-- In an operating system command, which a bell ends. -/
  | command
  /-- In a string without meaning for terminals. -/
  | ignored
deriving DecidableEq, Repr

private def holdsTerminator (c : Char) : Bool := (String.utf8EncodeChar c).contains 0x9C

private def between (first last : Nat) (c : Char) : Bool := first ≤ c.toNat && c.toNat ≤ last

private def isPlainBlank (c : Char) : Bool :=
  c = ' ' || c = '\t' || c = '\n' || c = '\x0c' || c = '\r'

namespace Place

private def afterEscape (c : Char) : Place :=
  if between 0x20 0x2F c then escapeIntermediate
  else if c = '[' then control
  else if c = 'P' then deviceEntry
  else if c = ']' then command
  else if c = 'X' ∨ c = '^' ∨ c = '_' then ignored
  else if between 0x30 0x7E c then ground
  else escape

/-- The place after a character. An escape starts a sequence anew from every place, and the
characters `0x18` and `0x1A` leave every sequence. -/
def next (p : Place) (c : Char) : Place :=
  if c = '\x1b' then escape
  else if c = '\x18' ∨ c = '\x1a' then ground
  else
    match p with
    | ground => ground
    | escape => afterEscape c
    | escapeIntermediate => if between 0x30 0x7E c then ground else escapeIntermediate
    | control => if between 0x40 0x7E c then ground else control
    | deviceEntry =>
      if between 0x20 0x2F c then deviceIntermediate
      else if between 0x30 0x3F c then deviceParameter
      else if between 0x40 0x7E c then device
      else deviceEntry
    | deviceParameter =>
      if between 0x20 0x2F c then deviceIntermediate
      else if between 0x3C 0x7E c then device
      else deviceParameter
    | deviceIntermediate => if between 0x30 0x7E c then device else deviceIntermediate
    | device => if holdsTerminator c then ground else device
    | command => if c = '\x07' then ground else command
    | ignored => if holdsTerminator c then ground else ignored

/-- Whether a character shows at a place. In sequences that are no strings white space other than
the blank is obeyed at once. -/
def shows (p : Place) (c : Char) : Bool :=
  match p with
  | ground => isPlainBlank c || (0x20 ≤ c.toNat && c.toNat ≠ 0x7F)
  | escape | escapeIntermediate | control => isPlainBlank c && c ≠ ' '
  | _ => false

end Place

/-- The characters that show, from a place on. After one that shows, the following ones show as in
no sequence, and the first that does not takes the sequence up again where it was left. -/
def shownFrom : Place → (showing : Bool) → List Char → List Char
  | _, _, [] => []
  | p, showing, c :: rest =>
    if (showing && Place.ground.shows c) || p.shows c then
      c :: shownFrom (if c.toNat < 0x80 then p else .ground) true rest
    else shownFrom (p.next c) false rest

def plain (s : List Char) : List Char := shownFrom .ground false s

def bold (s : String) : String := "\x1b[1m" ++ s ++ "\x1b[0m"

def warned (s : String) : String := "\x1b[33m" ++ s ++ "\x1b[0m"

end PriceFormula.Text.Terminal
