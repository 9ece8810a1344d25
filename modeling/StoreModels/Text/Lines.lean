/-!
Blank characters and trimming; lines and their indentation: splitting at line feeds, the blanks a line starts with, moving
a block of lines to the right, and what a file shows about its own style (line breaks and indentation unit). Texts are
lists of characters throughout the library; a position in a text is the number of characters before it, unless a name
says that it counts bytes.
-/
namespace StoreModels.Text

/-- The characters with the Unicode property `White_Space`. -/
def isBlank (c : Char) : Bool :=
  let n := c.toNat
  (9 ≤ n && n ≤ 13) || n == 0x20 || n == 0x85 || n == 0xA0 || n == 0x1680 || (0x2000 ≤ n && n ≤ 0x200A) ||
    n == 0x2028 || n == 0x2029 || n == 0x202F || n == 0x205F || n == 0x3000

/-- A text without the blanks it starts with. -/
def trimStart (text : List Char) : List Char := text.dropWhile isBlank

/-- A text without the blanks it ends with. -/
def trimEnd (text : List Char) : List Char := (text.reverse.dropWhile isBlank).reverse

/-- A text without the blanks around it. -/
def trim (text : List Char) : List Char := trimEnd (trimStart text)

/-- The characters of a text from position `start` up to position `stop`. -/
def slice (text : List Char) (start stop : Nat) : List Char := (text.drop start).take (stop - start)

/-- Whether `part` occurs in `text`. -/
def occursIn (part : List Char) : List Char → Bool
  | [] => part.isEmpty
  | c :: rest => part.isPrefixOf (c :: rest) || occursIn part rest

/-- What follows the first place where `part` occurs, the occurrence included. -/
def fromFirst? (part : List Char) : List Char → Option (List Char)
  | [] => if part.isEmpty then some [] else none
  | c :: rest => if part.isPrefixOf (c :: rest) then some (c :: rest) else fromFirst? part rest

/-! ## Lines -/

/-- The lines of a text: the pieces between its line feeds, of which there is always one more than line feeds. -/
def lines : List Char → List (List Char)
  | [] => [[]]
  | c :: rest => if c = '\n' then [] :: lines rest else (lines rest).modifyHead (c :: ·)

/-- A line without one carriage return at its end. -/
def dropReturn (line : List Char) : List Char :=
  if line.getLast? = some '\r' then line.dropLast else line

/-- The last line of a text. -/
def lastLine (text : List Char) : List Char := (lines text).getLast?.getD []

/-- A blank that counts as indentation. -/
def isIndent (c : Char) : Bool := c == ' ' || c == '\t'

/-- The indentation of the line that holds position `offset`, also where it reaches beyond the position. -/
def lineIndent (text : List Char) (offset : Nat) : List Char :=
  (lastLine (text.take offset) ++ text.drop offset).takeWhile isIndent

/-- One line of a block moved to the right; an empty line stays empty. -/
def indentLine (indent newline line : List Char) : List Char :=
  let body := dropReturn line
  newline ++ (if body.isEmpty then [] else indent) ++ body

/-- Every line but the first prefixed with `indent`, with `newline` for each line break. A text of one line is left
    as it is. -/
def reindent (text indent newline : List Char) : List Char :=
  match lines text with
  | [] => []
  | [_] => text
  | first :: rest => dropReturn first ++ rest.flatMap (indentLine indent newline)

/-- The two line breaks. -/
inductive Newline
  | lf
  | crlf
  deriving DecidableEq, Repr

/-- How a line break is written. -/
def Newline.text : Newline → List Char
  | .lf => ['\n']
  | .crlf => ['\r', '\n']

/-- The line break of a text: that of its first line. -/
def newlineOf (text : List Char) : Newline :=
  match lines text with
  | first :: _ :: _ => if first.getLast? = some '\r' then .crlf else .lf
  | _ => .lf

/-- Whether a text of comments and blanks ends inside a line comment: its last line has `//` with no `*/` after it. -/
def endsInLineComment (text : List Char) : Bool :=
  match fromFirst? ['/', '/'] (lastLine text) with
  | some rest => !occursIn ['*', '/'] rest
  | none => false

/-- What one line shows about the indentation unit: nothing, a tab, or a number of spaces. Empty lines and the inner
    lines of a block comment, which start with a star, show nothing. -/
def indentShown (line : List Char) : Option (List Char) :=
  let lead := line.takeWhile isIndent
  let rest := line.dropWhile isIndent
  if rest.isEmpty || rest.head? = some '*' || lead.isEmpty then none
  else if lead.head? = some '\t' then some ['\t']
  else some lead

/-- The smaller indentation of the two; a tab wins at once. -/
def smallestIndent : Option (List Char) → List (List Char) → Option (List Char)
  | best, [] => best
  | best, shown :: rest =>
    if shown = ['\t'] then some ['\t']
    else match best with
      | none => smallestIndent (some shown) rest
      | some b => smallestIndent (some (if shown.length < b.length then shown else b)) rest

/-- The lines of a text without the carriage returns of its line breaks. -/
def bareLines (text : List Char) : List (List Char) :=
  (lines text).dropLast.map dropReturn ++ [lastLine text]

/-- The indentation unit of a file: a tab as soon as an indented line starts with one, otherwise the least indentation
    of a line, written in spaces. -/
def indentUnit? (text : List Char) : Option (List Char) :=
  (smallestIndent none ((bareLines text).filterMap indentShown)).map fun unit =>
    if unit = ['\t'] then unit else List.replicate unit.length ' '

end StoreModels.Text
