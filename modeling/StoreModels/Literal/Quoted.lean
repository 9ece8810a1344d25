import StoreModels.Text.Position
import StoreModels.Literal.Number

/-!
Names that can stand as a bare property key, and string literals: writing a text between quotes, and reading a literal
back with all the escapes of the language. A string escape denotes a code unit; units in the two surrogate ranges stand
for a character only in pairs, and what stands for no character is replaced by U+FFFD.
-/
namespace StoreModels.Literal

/-- A character a bare name may start with: an ASCII letter, an underscore or a dollar sign. -/
def isNameStart (c : Char) : Bool := c.isAlpha || c == '_' || c == '$'

/-- A character a bare name may go on with. -/
def isNamePart (c : Char) : Bool := isNameStart c || c.isDigit

/-- Whether a text is a bare name. -/
def isBareName : List Char → Bool
  | [] => false
  | c :: rest => isNameStart c && rest.all isNamePart

/-! ## Code units -/

/-- The character that replaces whatever stands for none. -/
def replacement : Char := '\uFFFD'

/-- The first half of a surrogate pair. -/
def isHighSurrogate (code : Nat) : Bool := 0xD800 ≤ code && code < 0xDC00

/-- The second half of a surrogate pair. -/
def isLowSurrogate (code : Nat) : Bool := 0xDC00 ≤ code && code < 0xE000

/-- The character with a code, or the replacement when there is none. -/
def charOf (code : Nat) : Char := if code.isValidChar then Char.ofNat code else replacement

/-- The code that a surrogate pair stands for. -/
def combine (high low : Nat) : Nat := 0x10000 + (high - 0xD800) * 0x400 + (low - 0xDC00)

/-- One element of the inside of a string literal: a code, or a backslash with nothing after it. -/
inductive Piece
  | code (value : Nat)
  | dangling
  deriving DecidableEq, Repr

/-- What a pending high surrogate leaves when no low one follows. -/
def unpaired : Option Nat → List Char
  | none => []
  | some _ => [replacement]

/-- The characters of a sequence of pieces, given a high surrogate that still waits for its pair. -/
def decode : Option Nat → List Piece → List Char
  | pending, [] => unpaired pending
  | pending, .dangling :: rest => '\\' :: decode pending rest
  | pending, .code c :: rest =>
    if isHighSurrogate c then unpaired pending ++ decode (some c) rest
    else match pending with
      | some high => if isLowSurrogate c then charOf (combine high c) :: decode none rest
          else replacement :: charOf c :: decode none rest
      | none => charOf c :: decode none rest

/-! ## Literals -/

/-- How one character is written inside a literal. -/
def escapeChar (quote c : Char) : List Char :=
  if c = '\\' then ['\\', '\\']
  else if c = '\n' then ['\\', 'n']
  else if c = '\r' then ['\\', 'r']
  else if c = '\t' then ['\\', 't']
  else if c = quote then ['\\', c]
  else [c]

/-- A text as a literal between two quote characters. -/
def quoted (text : List Char) (quote : Char) : List Char :=
  quote :: text.flatMap (escapeChar quote) ++ [quote]

/-- A property key: the bare name where it is one, a literal otherwise. -/
def keyText (name : List Char) (quote : Char) : List Char :=
  if isBareName name then name else quoted name quote

/-- The quote character of a literal; anything that does not start with a double quote counts as single-quoted. -/
def quoteOf (raw : List Char) : Char := if raw.head? = some '"' then '"' else '\''

/-- The number spelled by at most `count` hexadecimal digits, and what follows them. No digit spells no number. -/
def readHex (count : Nat) (text : List Char) : Option Nat × List Char :=
  let digits := (text.take count).takeWhile isHexDigit
  (number? 16 digits, text.drop digits.length)

/-- The number spelled by the hexadecimal digits up to a closing brace, and what follows the brace. -/
def readBraced (text : List Char) : Option Nat × List Char :=
  (unsigned? 16 (Nat.pow 2 32) (text.takeWhile (· ≠ '}')), (text.dropWhile (· ≠ '}')).drop 1)

/-- The number after `u` in an escape, with or without braces, and what follows it. -/
def readCodePoint : List Char → Option Nat × List Char
  | '{' :: rest => readBraced rest
  | rest => readHex 4 rest

/-- The code of an escape of one letter. -/
def letterCode? (c : Char) : Option Nat :=
  if c = 'n' then some 10
  else if c = 'r' then some 13
  else if c = 't' then some 9
  else if c = 'b' then some 8
  else if c = 'f' then some 12
  else if c = 'v' then some 11
  else none

/-- Whether a text starts with a decimal digit. -/
def startsWithDigit : List Char → Bool
  | c :: _ => c.isDigit
  | [] => false

/-- A text without a line feed at its start. -/
def dropFeed : List Char → List Char
  | '\n' :: rest => rest
  | rest => rest

/-- The code of the escape whose backslash has been read, if it has one, and what follows the escape. A backslash
    before a line break continues the line and has none. -/
def readEscape (c : Char) (rest : List Char) : Option Nat × List Char :=
  if c = 'x' then readHex 2 rest
  else if c = 'u' then readCodePoint rest
  else if c = '\r' then (none, dropFeed rest)
  else (if c = '\n' then none
    else if c = '0' ∧ !startsWithDigit rest then some 0
    else some ((letterCode? c).getD c.toNat), rest)

theorem readHex_length (count : Nat) (text : List Char) : (readHex count text).2.length ≤ text.length := by
  simp [readHex]

theorem readBraced_length (text : List Char) : (readBraced text).2.length ≤ text.length := by
  have := (List.dropWhile_sublist (l := text) (fun c => decide (c ≠ '}'))).length_le
  simp [readBraced] at this ⊢
  omega

theorem readCodePoint_length (text : List Char) : (readCodePoint text).2.length ≤ text.length := by
  unfold readCodePoint
  split
  · rename_i rest
    exact Nat.le_succ_of_le (readBraced_length rest)
  · exact readHex_length 4 _

theorem dropFeed_length (text : List Char) : (dropFeed text).length ≤ text.length := by
  unfold dropFeed
  split <;> simp

theorem readEscape_length (c : Char) (rest : List Char) : (readEscape c rest).2.length ≤ rest.length := by
  unfold readEscape
  split
  · exact readHex_length 2 rest
  split
  · exact readCodePoint_length rest
  split
  · exact dropFeed_length rest
  · exact Nat.le_refl _

/-- The pieces of the inside of a literal. -/
def pieces : List Char → List Piece
  | [] => []
  | ['\\'] => [.dangling]
  | '\\' :: c :: rest =>
    ((readEscape c rest).1.map Piece.code).toList ++ pieces (readEscape c rest).2
  | c :: rest => .code c.toNat :: pieces rest
termination_by text => text.length
decreasing_by
  · have := readEscape_length c rest
    simp only [List.length_cons]
    omega
  · simp

/-- The text that the inside of a literal stands for. -/
def unescape (text : List Char) : List Char := decode none (pieces text)

/-- The text that a literal stands for, its first and last character taken for quotes. -/
def unquoted (raw : List Char) : List Char :=
  unescape (if 2 ≤ Text.byteLength raw then (raw.drop 1).dropLast else raw)

end StoreModels.Literal
