import StoreModels.Literal.Quoted
import StoreModels.Literal.Number

/-!
Reading data exchange texts. Each reader takes a text and yields what it read and the rest. A value that nobody wants is
only skipped: its strings may then hold halves of surrogate pairs, which stand for no character.
-/
namespace StoreModels.Json

/-- A blank. -/
def isBlank (c : Char) : Bool := c == ' ' || c == '\n' || c == '\t' || c == '\r'

/-- A text without the blanks it starts with. -/
def skipBlanks (text : List Char) : List Char := text.dropWhile isBlank

/-- What follows a character, with blanks allowed before and after it. -/
def mark? (c : Char) (text : List Char) : Option (List Char) :=
  match skipBlanks text with
  | d :: rest => if c = d then some (skipBlanks rest) else none
  | [] => none

/-! ## Strings -/

/-- What the characters after a backslash stand for, but for codes. -/
def escapes : List (Char × Nat) :=
  [('"', 0x22), ('\\', 0x5C), ('/', 0x2F), ('b', 0x08), ('f', 0x0C), ('n', 0x0A), ('r', 0x0D), ('t', 0x09)]

/-- The code after a backslash and the length of its spelling. -/
def readEscape? : List Char → Option (Nat × Nat)
  | 'u' :: rest =>
    if (rest.take 4).length = 4 then (Literal.number? 16 (rest.take 4)).map fun code => (code, 5) else none
  | c :: _ => (escapes.lookup c).map fun code => (code, 1)
  | [] => none

/-- The codes of a string after its opening quote, and the rest after its closing quote. -/
def codesFrom : Nat → List Char → Option (List Nat × List Char)
  | 0, _ => none
  | _, [] => none
  | fuel + 1, c :: rest =>
    if c = '"' then some ([], rest)
    else if c = '\\' then do
      let (code, n) ← readEscape? rest
      let (codes, rest) ← codesFrom fuel (rest.drop n)
      some (code :: codes, rest)
    else if c.toNat < 0x20 then none
    else do
      let (codes, rest) ← codesFrom fuel rest
      some (c.toNat :: codes, rest)

/-- The codes of a string, and the rest. -/
def codes? : List Char → Option (List Nat × List Char)
  | '"' :: rest => codesFrom (rest.length + 1) rest
  | _ => none

/-- The characters of codes, if every surrogate is one of a pair. -/
def charsOf? : List Nat → Option (List Char)
  | [] => some []
  | high :: low :: rest =>
    if Literal.isHighSurrogate high then
      if Literal.isLowSurrogate low then (charsOf? rest).map (Literal.charOf (Literal.combine high low) :: ·) else none
    else if Literal.isLowSurrogate high then none
    else (charsOf? (low :: rest)).map (Literal.charOf high :: ·)
  | [code] =>
    if Literal.isHighSurrogate code || Literal.isLowSurrogate code then none else some [Literal.charOf code]

/-- A string, and the rest. -/
def string? (text : List Char) : Option (List Char × List Char) := do
  let (codes, rest) ← codes? text
  return (← charsOf? codes, rest)

/-- A string or null, and the rest. -/
def nullableString? (text : List Char) : Option (Option (List Char) × List Char) :=
  if "null".toList.isPrefixOf text then some (none, text.drop 4)
  else (string? text).map fun (s, rest) => (some s, rest)

/-! ## Values that are skipped -/

/-- What follows one or more digits. -/
def skipDigits? (text : List Char) : Option (List Char) :=
  if (text.head?.map Char.isDigit) = some true then some (text.dropWhile Char.isDigit) else none

/-- What follows a whole number, which has no spare zero in front. -/
def skipWhole? : List Char → Option (List Char)
  | '0' :: rest => if (rest.head?.map Char.isDigit) = some true then none else some rest
  | text => skipDigits? text

/-- What follows an optional fraction. -/
def skipFraction? : List Char → Option (List Char)
  | '.' :: rest => skipDigits? rest
  | text => some text

/-- What follows an optional exponent. -/
def skipExponent? : List Char → Option (List Char)
  | [] => some []
  | c :: rest =>
    if c = 'e' ∨ c = 'E' then
      skipDigits? (match rest with
        | '+' :: digits | '-' :: digits => digits
        | digits => digits)
    else some (c :: rest)

/-- What follows a number. -/
def skipNumber? (text : List Char) : Option (List Char) := do
  let unsigned := match text with
    | '-' :: rest => rest
    | _ => text
  skipExponent? (← skipFraction? (← skipWhole? unsigned))

/-- What follows one of the three words. -/
def skipWord? (text : List Char) : Option (List Char) :=
  (["null", "true", "false"].find? fun word => word.toList.isPrefixOf text).map fun word => text.drop word.length

/-- What follows items with commas between, up to a closing bracket. -/
def skipItems? (item : List Char → Option (List Char)) (close : Char) : Nat → List Char → Option (List Char)
  | 0, _ => none
  | fuel + 1, text => do
    let text := skipBlanks (← item text)
    match text with
    | [] => none
    | c :: rest =>
      if c = close then some rest
      else if c = ',' then skipItems? item close fuel (skipBlanks rest)
      else none

/-- What follows a value. -/
def skip? : Nat → List Char → Option (List Char)
  | 0, _ => none
  | fuel + 1, text =>
    match text with
    | '"' :: _ => (codes? text).map (·.2)
    | '[' :: rest => match skipBlanks rest with
      | ']' :: rest => some rest
      | items => skipItems? (skip? fuel) ']' text.length items
    | '{' :: rest => match skipBlanks rest with
      | '}' :: rest => some rest
      | members =>
        skipItems? (fun member => do skip? fuel (← mark? ':' (← codes? member).2)) '}' text.length members
    | _ => skipWord? text <|> skipNumber? text

end StoreModels.Json
