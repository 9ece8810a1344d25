import StoreModels.Literal.Number

/-!
How lexemes are spelled. Each reader takes the text from some position on and says how many characters the lexeme
there has; zero, or none, means that no such lexeme starts there.
-/
namespace StoreModels.Syntax.Spelling
open Literal (isHexDigit)

/-! ## Blanks and comments -/

/-- The space separators of Unicode. -/
def isSeparator (c : Char) : Bool :=
  let n := c.toNat
  n == 0x20 || n == 0xA0 || n == 0x1680 || (0x2000 ≤ n && n ≤ 0x200A) || n == 0x202F || n == 0x205F || n == 0x3000

/-- A character that may stand between any two tokens. -/
def isSpace (c : Char) : Bool :=
  let n := c.toNat
  (9 ≤ n && n ≤ 13) || isSeparator c || n == 0xFEFF || n == 0x2028 || n == 0x2029 || n == 0x2060 || n == 0x200B

/-- The length of what stands before the end of a block comment, the end included. -/
def blockEnd? : List Char → Option Nat
  | '*' :: '/' :: _ => some 2
  | _ :: rest => (blockEnd? rest).map (· + 1)
  | [] => none

/-- A character that ends a line comment. -/
def endsLine (c : Char) : Bool := c == '\n' || c == '\r' || c == '\u2028' || c == '\u2029'

/-- The length of the comment at the start of a text. A line comment ends before the end of its line. -/
def comment? : List Char → Option Nat
  | '/' :: '/' :: rest => some (2 + (rest.takeWhile fun c => !endsLine c).length)
  | '/' :: '*' :: rest => (blockEnd? rest).map (· + 2)
  | _ => none

/-! ## Words -/

/-- A character that no word holds. -/
def isDelimiter (c : Char) : Bool :=
  c.toNat < 0x20 || isSpace c || ":;`\"'@#.,|^&<=>+-*/\\%?!~()[]\x7b\x7d".toList.contains c

/-- The length of a Unicode escape inside a word. -/
def wordEscape : List Char → Nat
  | '\\' :: 'u' :: '{' :: rest =>
    let digits := (rest.takeWhile isHexDigit).length
    if 0 < digits ∧ rest[digits]? = some '}' then digits + 4 else 0
  | '\\' :: 'u' :: rest => if 4 ≤ ((rest.take 4).takeWhile isHexDigit).length then 6 else 0
  | _ => 0

/-- The length of the rest of a word. -/
def wordTail : Nat → List Char → Nat
  | 0, _ => 0
  | _, [] => 0
  | fuel + 1, c :: rest =>
    if isDelimiter c then
      let n := wordEscape (c :: rest)
      if n = 0 then 0 else n + wordTail fuel ((c :: rest).drop n)
    else 1 + wordTail fuel rest

/-- The length of a word: a name or a keyword. -/
def word (text : List Char) : Nat :=
  match text with
  | [] => 0
  | c :: _ => if c.isDigit then 0 else wordTail text.length text

/-! ## Numbers -/

/-- The length of digits after the first one; an underscore may stand between two digits. -/
def digitTail (isDigit : Char → Bool) : List Char → Nat
  | '_' :: c :: rest => if isDigit c then 2 + digitTail isDigit rest else 0
  | c :: rest => if isDigit c then 1 + digitTail isDigit rest else 0
  | [] => 0

/-- The length of one or more digits. -/
def digits (isDigit : Char → Bool) : List Char → Nat
  | c :: rest => if isDigit c then 1 + digitTail isDigit rest else 0
  | [] => 0

/-- The length of a number with a radix prefix. -/
def prefixed : List Char → Nat
  | '0' :: p :: rest =>
    let isDigit : Char → Bool :=
      if p = 'x' ∨ p = 'X' then isHexDigit
      else if p = 'o' ∨ p = 'O' then fun c => '0' ≤ c ∧ c ≤ '7'
      else if p = 'b' ∨ p = 'B' then fun c => c = '0' ∨ c = '1'
      else fun _ => false
    let n := digits isDigit rest
    if n = 0 then 0 else n + 2
  | _ => 0

/-- The length of the whole part of a number that may go on with a point or an exponent: one zero at most may stand
    before other digits. -/
def wholePart : List Char → Nat
  | '0' :: c :: rest => if '1' ≤ c ∧ c ≤ '9' then 2 + digitTail Char.isDigit rest else 1
  | c :: rest => if c = '0' then 1 else if c.isDigit then 1 + digitTail Char.isDigit rest else 0
  | [] => 0

/-- The length of an exponent. -/
def exponent : List Char → Nat
  | c :: rest =>
    if c = 'e' ∨ c = 'E' then
      let sign := match rest with
        | '+' :: _ | '-' :: _ => 1
        | _ => 0
      let n := digits Char.isDigit (rest.drop sign)
      if n = 0 then 0 else 1 + sign + n
    else 0
  | [] => 0

/-- The length of what follows the whole part: a point with digits, an exponent, or both. -/
def fraction : List Char → Nat
  | '.' :: rest =>
    let n := digits Char.isDigit rest
    1 + n + exponent (rest.drop n)
  | rest => exponent rest

/-- The length with the letter that marks a big integer. -/
def withSuffix (text : List Char) (n : Nat) : Nat := if 0 < n ∧ text[n]? = some 'n' then n + 1 else n

/-- The length of a number: the longest of its forms. -/
def number (text : List Char) : Nat :=
  match text with
  | '.' :: rest =>
    let n := digits Char.isDigit rest
    if n = 0 then 0 else 1 + n + exponent (rest.drop n)
  | _ =>
    let whole := wholePart text
    let pointed := if whole = 0 then 0 else
      let n := fraction (text.drop whole)
      if n = 0 then 0 else whole + n
    max (withSuffix text (prefixed text)) (max (withSuffix text (digits Char.isDigit text)) pointed)

/-- The length of an identifier that names a private member, with its mark. -/
def privateName : List Char → Nat
  | '#' :: rest => if word rest = 0 then 0 else word rest + 1
  | _ => 0

/-- The length of the first line of a script that names its interpreter. -/
def interpreterLine : List Char → Nat
  | '#' :: '!' :: rest => 2 + (rest.takeWhile (· ≠ '\n')).length
  | _ => 0

/-! ## Strings and templates -/

/-- An octal digit. -/
def isOctalDigit (c : Char) : Bool := '0' ≤ c ∧ c ≤ '7'

/-- The length of an escape in a string, the backslash included. A carriage return, or a question mark, takes a line
    break after it along. -/
def escape : List Char → Nat
  | '\\' :: 'x' :: rest => if 2 ≤ ((rest.take 2).takeWhile isHexDigit).length then 4 else 0
  | '\\' :: 'u' :: rest => wordEscape ('\\' :: 'u' :: rest)
  | '\\' :: c :: rest =>
    if isOctalDigit c then 2 + ((rest.take 2).takeWhile isOctalDigit).length
    else if c = '\r' ∨ c = '?' then
      match rest with
      | d :: _ => if d = '\n' ∨ d = '\u2028' ∨ d = '\u2029' then 3 else 2
      | [] => 2
    else 2
  | _ => 0

/-- The length of plain text in a string: up to a quote, an escape or the end of the line. -/
def quotedText (quote : Char) (text : List Char) : Nat :=
  (text.takeWhile fun c => c ≠ quote && c ≠ '\\' && c ≠ '\r' && c ≠ '\n').length

/-- The length of the plain text of a template: it ends before a backslash, a closing quote or a substitution. None
    stands for a template that does not end. -/
def templateText? : List Char → Option Nat
  | [] => none
  | '$' :: '{' :: _ => some 0
  | c :: rest => if c = '`' ∨ c = '\\' then some 0 else (templateText? rest).map (· + 1)

/-- The length of the pattern of a regular expression, up to the slash that closes it; slashes between brackets do not.
    It ends on its line. -/
def regexPattern? (inClass : Bool) : List Char → Option Nat
  | [] => none
  | '\\' :: c :: rest => if c = '\n' then none else (regexPattern? inClass rest).map (· + 2)
  | c :: rest =>
    if c = '\n' ∨ c = '\\' then none
    else if c = '/' ∧ !inClass then some 0
    else (regexPattern? (if c = '[' then true else if c = ']' then false else inClass) rest).map (· + 1)

/-- The length of the flags of a regular expression. -/
def regexFlags (text : List Char) : Nat := (text.takeWhile fun c => 'a' ≤ c && c ≤ 'z').length

/-! ## Markup -/

/-- A character that begins a name in markup. -/
def beginsMarkupName (c : Char) : Bool := c.isAlpha || c == '_' || c == '$'

/-- The length of a name in markup with a dash in it; without one it is an ordinary name. -/
def markupName (text : List Char) : Nat :=
  match text with
  | [] => 0
  | c :: _ =>
    if beginsMarkupName c then
      let front := (text.takeWhile fun c => beginsMarkupName c || c.isDigit).length
      match text.drop front with
      | '-' :: rest => front + 1 + (rest.takeWhile fun c => beginsMarkupName c || c.isDigit || c == '-').length
      | _ => 0
    else 0

/-- The length of a reference to a character by its number or its name. -/
def characterReference : List Char → Nat
  | '&' :: rest =>
    let closed := fun (front : Nat) (most : Nat) (isPart : Char → Bool) (digits : List Char) =>
      let n := (digits.takeWhile isPart).length
      if 0 < n ∧ n ≤ most ∧ digits[n]? = some ';' then front + n + 1 else 0
    match rest with
    | '#' :: 'x' :: digits => closed 3 6 isHexDigit digits
    | '#' :: 'X' :: digits => closed 3 6 isHexDigit digits
    | '#' :: digits => closed 2 5 Char.isDigit digits
    | name => closed 1 30 Char.isAlpha name
  | _ => 0

/-- The length of plain text in a quoted value of markup. An ampersand belongs to it when what follows cannot name a
    character, and takes what follows along. -/
def quotedMarkup (quote : Char) : List Char → Nat
  | [] => 0
  | '&' :: rest => match rest with
    | d :: more => if d = '#' ∨ d.isAlpha then 0 else 2 + quotedMarkup quote more
    | [] => 0
  | c :: rest => if c = quote then 0 else 1 + quotedMarkup quote rest

end StoreModels.Syntax.Spelling
