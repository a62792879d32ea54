import PriceFormula.Number.Notation
import PriceFormula.Number.Numeral
import PriceFormula.Text.Blank
import PriceFormula.Text.Segment

namespace PriceFormula

inductive Token where
  | number (value : Float)
  | boolean (value : Bool)
  | identifier (name : String)
  | and | or | not
  | plus | minus | star | slash | percent | power
  | equal | notEqual | identical | notIdentical
  | less | lessEqual | greater | greaterEqual
  | comma | openParen | closeParen
deriving DecidableEq

namespace Token

def text : Token → String
  | number n => Notation.plain.text n
  | boolean true => "true"
  | boolean false => "false"
  | identifier name => name
  | and => "and"
  | or => "or"
  | not => "not"
  | plus => "+"
  | minus => "-"
  | star => "*"
  | slash => "/"
  | percent => "%"
  | power => "**"
  | equal => "=="
  | notEqual => "!="
  | identical => "==="
  | notIdentical => "!=="
  | less => "<"
  | lessEqual => "<="
  | greater => ">"
  | greaterEqual => ">="
  | comma => ","
  | openParen => "("
  | closeParen => ")"

def isNameStart (c : Char) : Bool := c.isAlpha || c = '_'

def isNamePart (c : Char) : Bool := c.isAlphanum || c = '_'

def ofWord (word : List Char) : Token :=
  let lowered := word.map Char.toLower
  if lowered = ['t', 'r', 'u', 'e'] then boolean true
  else if lowered = ['f', 'a', 'l', 's', 'e'] then boolean false
  else if lowered = ['a', 'n', 'd'] then and
  else if lowered = ['o', 'r'] then or
  else if lowered = ['n', 'o', 't'] then not
  else identifier (String.ofList word)

/-- Signs that begin alike: this one, unless a character follows that makes it longer. -/
inductive Signs where
  | one (t : Token)
  | longer (t : Token) (next : Char) (more : Signs)

def signs? : Char → Option Signs
  | '+' => some (.one plus)
  | '-' => some (.one minus)
  | '/' => some (.one slash)
  | '%' => some (.one percent)
  | ',' => some (.one comma)
  | '(' => some (.one openParen)
  | ')' => some (.one closeParen)
  | '*' => some (.longer star '*' (.one power))
  | '<' => some (.longer less '=' (.one lessEqual))
  | '>' => some (.longer greater '=' (.one greaterEqual))
  | '!' => some (.longer not '=' (.longer notEqual '=' (.one notIdentical)))
  | _ => none

/-- The signs that begin with a character twice. Once it is no token. -/
def doubled? : Char → Option Signs
  | '=' => some (.longer equal '=' (.one identical))
  | '&' => some (.one and)
  | '|' => some (.one or)
  | _ => none

/-- The longest of some signs, and how many characters of a text it takes behind its beginning. -/
def Signs.find : Signs → List Char → Token × Nat
  | one t, _ => (t, 0)
  | longer t next more, rest =>
    if rest.head? = some next then (more.find rest.tail).map id (· + 1) else (t, 0)

def findWord : Text.Finder Token := fun c rest =>
  if isNameStart c then
    let tail := rest.takeWhile isNamePart
    some (ofWord (c :: tail), tail.length)
  else (Numeral.scan (c :: rest)).map fun (d, length) => (number d.toFloat, length - 1)

def find : Text.Finder Token := fun c rest =>
  match signs? c, doubled? c with
  | some signs, _ => some (signs.find rest)
  | none, some signs =>
    if rest.head? = some c then some ((signs.find rest.tail).map id (· + 1)) else findWord c rest
  | none, none => findWord c rest

end Token

structure Located where
  token : Token
  start : Nat
  stop : Nat

/-- Where the tokens of a text end, as a byte offset: at its end, or at a character that no token
starts with. -/
structure Ending where
  position : Nat
  stray : Option Char

structure TokenList where
  tokens : List Located
  ending : Ending

namespace TokenList

/-- The tokens among segments that start at a byte offset. Blank characters separate them, and the
first other character between them ends them. -/
def ofSegments : Nat → List (Text.Segment Token) → TokenList
  | offset, [] => ⟨[], ⟨offset, none⟩⟩
  | offset, .found token text :: rest =>
    let stop := offset + Text.width text
    let later := ofSegments stop rest
    ⟨⟨token, offset, stop⟩ :: later.tokens, later.ending⟩
  | offset, .plain c :: rest =>
    if Text.isBlank c then ofSegments (offset + c.utf8Size) rest else ⟨[], ⟨offset, some c⟩⟩

def ofText (s : List Char) : TokenList := ofSegments 0 (Text.Segment.cut Token.find s)

end TokenList
end PriceFormula
