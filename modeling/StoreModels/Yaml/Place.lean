/-!
Places in a document, and what its characters do there.
-/
namespace StoreModels.Yaml

/-- A blank within a line. -/
def isBlank (c : Char) : Bool := c == ' ' || c == '\t'

/-- A character that ends a line. -/
def isBreak (c : Char) : Bool := c == '\n' || c == '\r' || c == '\u0085' || c == '\u2028' || c == '\u2029'

/-- Whether a text is over or goes on with a line break. -/
def startsBreak : List Char → Bool
  | [] => true
  | c :: _ => isBreak c

/-- Whether a text is over or goes on with a blank or a line break. -/
def startsBlank : List Char → Bool
  | [] => true
  | c :: _ => isBlank c || isBreak c

/-- The characters of names: of anchors, of tag handles and of directives. -/
def isNamePart (c : Char) : Bool := c.isAlphanum || c == '_' || c == '-'

/-- A place in a text: what follows it, and how many characters, lines, and characters of its line come before it. -/
structure Place where
  rest : List Char
  index : Nat
  line : Nat
  column : Nat
  deriving DecidableEq, Repr

namespace Place

/-- The start of a text. -/
def start (text : List Char) : Place := ⟨text, 0, 0, 0⟩

/-- The place after the next `n` characters, which hold no line break. -/
def skip (p : Place) (n : Nat) : Place := ⟨p.rest.drop n, p.index + n, p.line, p.column + n⟩

/-- The place after the line break that comes next, if one does. A carriage return and a line feed are one break. -/
def skipBreak (p : Place) : Place :=
  match p.rest with
  | '\r' :: '\n' :: rest => ⟨rest, p.index + 2, p.line + 1, 0⟩
  | c :: rest => if isBreak c then ⟨rest, p.index + 1, p.line + 1, 0⟩ else p
  | [] => p

/-- The text that the next line break adds to a scalar: the separators of Unicode stay, any other break is a line
    feed. -/
def breakText (p : Place) : List Char :=
  match p.rest with
  | c :: _ => if c = '\u2028' ∨ c = '\u2029' then [c] else if isBreak c then ['\n'] else []
  | [] => []

/-- The place after the characters that fulfil a condition, which no line break does. -/
def skipWhile (p : Place) (f : Char → Bool) : Place := p.skip (p.rest.takeWhile f).length

/-- Whether a given character stands here. -/
def atChar (p : Place) (c : Char) : Bool := p.rest.head? = some c

/-- Whether a mark of three characters stands at the start of a line on its own. -/
def atMarker (p : Place) (mark : String) : Bool :=
  p.column == 0 && mark.toList.isPrefixOf p.rest && startsBlank (p.rest.drop 3)

/-- Whether a document starts or ends here. -/
def atBoundary (p : Place) : Bool := p.atMarker "---" || p.atMarker "..."

/-- The place after blanks and a comment, which have to reach to the end of the line, and after its break. -/
def endLine? (p : Place) : Option Place :=
  let p := p.skipWhile isBlank
  let p := if p.atChar '#' then p.skipWhile (!isBreak ·) else p
  if startsBreak p.rest then some p.skipBreak else none

end Place

end StoreModels.Yaml
