import StoreModels.Yaml.Scalar

/-!
The tokens of a document. Outside brackets the columns of a text say where collections begin and end; tokens for these
are added to those that are written. A key is only known as one when the colon after it is met, on the same line and
not too far away: its token, and that for the mapping that it may begin, are then put before it.
-/
namespace StoreModels.Yaml

/-- How a scalar is written, as far as it matters for what it stands for. -/
inductive Style
  | plain
  | literal
  | other
  deriving DecidableEq, Repr

/-- A token. -/
inductive Token
  | version (major minor : Nat)
  | tagPrefix (handle text : List Char)
  | documentStart
  | documentEnd
  | sequenceStart
  | mappingStart
  | blockEnd
  | openBracket
  | closeBracket
  | openBrace
  | closeBrace
  | dash
  | comma
  | key
  | value
  | reference (name : List Char)
  | anchor (name : List Char)
  | tag (handle suffix : List Char)
  | scalar (style : Style) (text : List Char)
  deriving DecidableEq, Repr

/-! ## Names, tags and directives -/

/-- A name after its mark, and the place after it. -/
def name? (p : Place) : Option (List Char × Place) :=
  let name := p.rest.takeWhile isNamePart
  let after := p.skip name.length
  let ends := match after.rest with
    | c :: _ => startsBlank after.rest || "?:,]\x7d%@`".toList.contains c
    | [] => true
  if name.isEmpty || !ends then none else some (name, after)

/-- The characters of tags besides those of names; within angle brackets three more. -/
def isTagPart (inAngles : Bool) (c : Char) : Bool :=
  isNamePart c || ";/?:@&=+$.!~*'()".toList.contains c || (inAngles && ",[]".toList.contains c)

/-- How many bytes a character takes whose first byte is given. -/
def byteCount? (first : Nat) : Option Nat :=
  if first < 0x80 then some 1
  else if 0xC0 ≤ first ∧ first < 0xE0 then some 2
  else if 0xE0 ≤ first ∧ first < 0xF0 then some 3
  else if 0xF0 ≤ first ∧ first < 0xF8 then some 4
  else none

/-- Bytes written as a percent sign and two digits each. -/
def escapedBytes? : Nat → List Char → Option (List Nat)
  | 0, _ => some []
  | n + 1, '%' :: a :: b :: rest => do
    let byte ← Literal.number? 16 [a, b]
    let more ← escapedBytes? n rest
    some (byte :: more)
  | _, _ => none

/-- The bytes of one character written with percent signs. -/
def escapedCharacter? (text : List Char) : Option (List Nat) := do
  let first ← (← escapedBytes? 1 text).head?
  let bytes ← escapedBytes? (← byteCount? first) text
  if bytes.tail.all fun b => 0x80 ≤ b ∧ b < 0xC0 then some bytes else none

/-- The text of a tag, its escaped bytes as characters with their numbers. -/
def tagText? (inAngles : Bool) : Nat → List Char → Place → Option (List Char × Place)
  | 0, text, p => some (text, p)
  | fuel + 1, text, p =>
    match p.rest with
    | c :: _ =>
      if c = '%' then do
        let bytes ← escapedCharacter? p.rest
        tagText? inAngles fuel (text ++ bytes.map Char.ofNat) (p.skip (3 * bytes.length))
      else if isTagPart inAngles c then tagText? inAngles fuel (text ++ [c]) (p.skip 1)
      else some (text, p)
    | [] => some (text, p)

/-- The text of a tag after a beginning; both together may not be empty. -/
def tagTextAfter? (inAngles : Bool) (beginning : List Char) (p : Place) : Option (List Char × Place) := do
  let (text, after) ← tagText? inAngles (p.rest.length + 1) [] p
  if beginning.isEmpty && after.index == p.index then none else some (beginning.tail ++ text, after)

/-- The handle of a tag: an exclamation mark, and perhaps a name and another mark. -/
def tagHandle? (p : Place) : Option (List Char × Place) :=
  if p.atChar '!' then
    let after := (p.skip 1).skipWhile isNamePart
    let after := if after.atChar '!' then after.skip 1 else after
    some (p.rest.take (after.index - p.index), after)
  else none

/-- Whether a text is a handle with a name between two marks, or with two marks. -/
def isFullHandle (handle : List Char) : Bool := 1 < handle.length && handle.getLast? = some '!'

/-- A tag and the place after it: verbatim in angle brackets, with a handle, or after one mark only. A mark alone has no
    handle. -/
def tag? (inFlow : Bool) (p : Place) : Option (Token × Place) := do
  let (token, after) ←
    if (p.skip 1).atChar '<' then do
      let (text, after) ← tagTextAfter? true [] (p.skip 2)
      if after.atChar '>' then some (Token.tag [] text, after.skip 1) else none
    else do
      let (handle, after) ← tagHandle? p
      if isFullHandle handle then
        let (suffix, after) ← tagTextAfter? false [] after
        some (Token.tag handle suffix, after)
      else
        let (suffix, after) ← tagTextAfter? false handle after
        some (if suffix.isEmpty then Token.tag [] ['!'] else Token.tag ['!'] suffix, after)
  if startsBlank after.rest || (inFlow && after.atChar ',') then some (token, after) else none

/-- A part of a version: one to nine digits. -/
def versionNumber? (p : Place) : Option (Nat × Place) := do
  let digits := p.rest.takeWhile Char.isDigit
  let n ← Literal.number? 10 digits
  if digits.length ≤ 9 then some (n, p.skip digits.length) else none

/-- The version that a document is written for. -/
def versionDirective? (p : Place) : Option (Token × Place) := do
  let (major, p) ← versionNumber? (p.skipWhile isBlank)
  if p.atChar '.' then
    let (minor, p) ← versionNumber? (p.skip 1)
    some (.version major minor, p)
  else none

/-- What a tag handle stands for. -/
def tagDirective? (p : Place) : Option (Token × Place) := do
  let (handle, p) ← tagHandle? (p.skipWhile isBlank)
  if !(handle = ['!'] || isFullHandle handle) || !(p.rest.head?.any isBlank) then none
  let (text, p) ← tagTextAfter? true [] (p.skipWhile isBlank)
  if startsBlank p.rest then some (.tagPrefix handle text, p) else none

/-- A directive and the place after its line. -/
def directive? (p : Place) : Option (Token × Place) := do
  let name := (p.skip 1).rest.takeWhile isNamePart
  let after := p.skip (1 + name.length)
  if !startsBlank after.rest then none
  let (token, after) ←
    if name = "YAML".toList then versionDirective? after
    else if name = "TAG".toList then tagDirective? after
    else none
  some (token, ← after.endLine?)

/-! ## The scanner -/

/-- Something that a colon may make a key: where its tokens begin, where it stands, and whether it must be a key. -/
structure PossibleKey where
  token : Nat
  place : Place
  required : Bool

/-- The state of the scanner: the place, the tokens so far, the column of the collection around (below zero for none)
    and of those around it, whether a key may begin here, the possible key of the innermost brackets, and those of the
    levels around them. -/
structure Scanner where
  place : Place
  tokens : Array Token
  indent : Int
  indents : List Int
  keyAllowed : Bool
  key : Option PossibleKey
  outerKeys : List (Option PossibleKey)

namespace Scanner

/-- The scanner before a text. -/
def start (text : List Char) : Scanner := ⟨Place.start text, #[], -1, [], true, none, []⟩

/-- Whether the place is inside brackets. -/
def inFlow (s : Scanner) : Bool := !s.outerKeys.isEmpty

/-- The scanner with one more token, at a new place. -/
def emit (s : Scanner) (token : Token) (place : Place) : Scanner := { s with tokens := s.tokens.push token, place }

/-- Skips blanks, comments and line breaks. Where a key may begin, tabs do not count as blanks; at the start of a line
    outside brackets a key may begin. A byte order mark may stand at the start of a line. -/
def skipSpace (inFlow : Bool) : Nat → (keyAllowed : Bool) → Place → Place × Bool
  | 0, keyAllowed, p => (p, keyAllowed)
  | fuel + 1, keyAllowed, p =>
    let p := if p.column = 0 ∧ p.atChar '\uFEFF' then p.skip 1 else p
    let p := p.skipWhile fun c => c == ' ' || ((inFlow || !keyAllowed) && c == '\t')
    let p := if p.atChar '#' then p.skipWhile (!isBreak ·) else p
    match p.rest with
    | c :: _ =>
      if isBreak c then skipSpace inFlow fuel (keyAllowed || !inFlow) p.skipBreak else (p, keyAllowed)
    | [] => (p, keyAllowed)

/-- The scanner at the next token. -/
def toNext (s : Scanner) : Scanner :=
  let (place, keyAllowed) := skipSpace s.inFlow (s.place.rest.length + 1) s.keyAllowed s.place
  { s with place, keyAllowed }

/-- How many characters after its beginning a key may still be followed by its colon. -/
def keyReach : Nat := 1024

/-- A possible key that can still become one; none at all where a required key cannot. -/
def stillPossible? (p : Place) (key : Option PossibleKey) : Option (Option PossibleKey) :=
  match key with
  | some k =>
    if k.place.line < p.line ∨ k.place.index + keyReach < p.index then
      if k.required then none else some none
    else some key
  | none => some none

/-- The scanner without the possible keys that are out of reach. -/
def dropStale? (s : Scanner) : Option Scanner := do
  let key ← stillPossible? s.place s.key
  let outerKeys ← s.outerKeys.mapM (stillPossible? s.place)
  some { s with key, outerKeys }

/-- The scanner without a possible key here, unless that has to be one. -/
def dropKey? (s : Scanner) : Option Scanner :=
  match s.key with
  | some k => if k.required then none else some { s with key := none }
  | none => some s

/-- The scanner with a possible key that begins here, if a key may. -/
def noteKey? (s : Scanner) : Option Scanner :=
  if s.keyAllowed then do
    let s ← s.dropKey?
    some { s with key := some ⟨s.tokens.size, s.place, !s.inFlow && s.indent == s.place.column⟩ }
  else some s

/-- Ends the collections that stand right of a column. -/
def unroll (column : Int) : List Int → Scanner → Scanner
  | [], s => s
  | outer :: indents, s =>
    if !s.inFlow ∧ column < s.indent then
      unroll column indents { s with tokens := s.tokens.push .blockEnd, indent := outer, indents }
    else s

/-- Ends the collections that stand right of a column. -/
def unrollTo (s : Scanner) (column : Int) : Scanner := unroll column s.indents s

/-- Begins a collection in a column that is right of the one around, before the token with a number. -/
def roll (s : Scanner) (column : Nat) (before : Nat) (token : Token) : Scanner :=
  if !s.inFlow ∧ s.indent < column then
    { s with indents := s.indent :: s.indents, indent := column, tokens := s.tokens.insertIdxIfInBounds before token }
  else s

/-- A mark that begins or ends a document, or a directive: all collections end. -/
def boundary? (s : Scanner) (token : Token) (place : Place) : Option Scanner := do
  let s ← (s.unrollTo (-1)).dropKey?
  some ({ s with keyAllowed := false }.emit token place)

/-- An opening bracket. -/
def open? (s : Scanner) (token : Token) : Option Scanner := do
  let s ← s.noteKey?
  some ({ s with outerKeys := s.key :: s.outerKeys, key := none, keyAllowed := true }.emit token (s.place.skip 1))

/-- A closing bracket. -/
def close? (s : Scanner) (token : Token) : Option Scanner := do
  let s ← s.dropKey?
  let s := match s.outerKeys with
    | key :: outerKeys => { s with key, outerKeys }
    | [] => s
  some ({ s with keyAllowed := false }.emit token (s.place.skip 1))

/-- A dash before an item, or a question mark before a key. -/
def entry? (s : Scanner) (token collection : Token) (keyAllowed : Bool) : Option Scanner := do
  if !s.inFlow && !s.keyAllowed then none
  let s ← (s.roll s.place.column s.tokens.size collection).dropKey?
  some ({ s with keyAllowed }.emit token (s.place.skip 1))

/-- A colon before a value: what comes before it may be a key. -/
def value? (s : Scanner) : Option Scanner :=
  match s.key with
  | some k =>
    let s := { s with tokens := s.tokens.insertIdxIfInBounds k.token .key }
    let s := s.roll k.place.column k.token .mappingStart
    some ({ s with key := none, keyAllowed := false }.emit .value (s.place.skip 1))
  | none =>
    if !s.inFlow && !s.keyAllowed then none
    else
      let s := s.roll s.place.column s.tokens.size .mappingStart
      some ({ s with keyAllowed := !s.inFlow }.emit .value (s.place.skip 1))

/-- A token that may begin a key. -/
def content? (s : Scanner) (read : Place → Option (Token × Place)) : Option Scanner := do
  let s ← s.noteKey?
  let (token, place) ← read s.place
  some ({ s with keyAllowed := false }.emit token place)

/-- A plain scalar. After one that ends with a line break a key may begin. -/
def plain? (s : Scanner) : Option Scanner := do
  let s ← s.noteKey?
  let (text, crossesLine, place) ← plain s.inFlow (s.indent + 1) s.place
  some ({ s with keyAllowed := crossesLine }.emit (.scalar .plain text) place)

/-- A scalar in a block of lines. -/
def block? (s : Scanner) (folded : Bool) : Option Scanner := do
  let s ← s.dropKey?
  let (text, place) ← block folded s.indent (s.place.skip 1)
  some ({ s with keyAllowed := true }.emit (.scalar (if folded then .other else .literal) text) place)

/-- The token that begins with a character here. -/
def token? (s : Scanner) (c : Char) : Option Scanner :=
  let p := s.place
  let isAlone := startsBlank (p.rest.drop 1)
  if p.column = 0 ∧ c = '%' then (directive? p).bind fun (token, place) => s.boundary? token place
  else if p.atMarker "---" then s.boundary? .documentStart (p.skip 3)
  else if p.atMarker "..." then s.boundary? .documentEnd (p.skip 3)
  else if c = '[' then s.open? .openBracket
  else if c = '{' then s.open? .openBrace
  else if c = ']' then s.close? .closeBracket
  else if c = '}' then s.close? .closeBrace
  else if c = ',' then do
    let s ← s.dropKey?
    some ({ s with keyAllowed := true }.emit .comma (p.skip 1))
  else if c = '-' ∧ isAlone then s.entry? .dash .sequenceStart true
  else if c = '?' ∧ (s.inFlow ∨ isAlone) then s.entry? .key .mappingStart (!s.inFlow)
  else if c = ':' ∧ (s.inFlow ∨ isAlone) then s.value?
  else if c = '*' then s.content? fun p => (name? (p.skip 1)).map fun (name, p) => (.reference name, p)
  else if c = '&' then s.content? fun p => (name? (p.skip 1)).map fun (name, p) => (.anchor name, p)
  else if c = '!' then s.content? (tag? s.inFlow)
  else if c = '|' ∧ !s.inFlow then s.block? false
  else if c = '>' ∧ !s.inFlow then s.block? true
  else if c = '\'' ∨ c = '"' then s.content? fun p => (quoted p).map fun (text, p) => (.scalar .other text, p)
  else if startsPlain s.inFlow p.rest then s.plain?
  else none

/-- All tokens from here on. -/
def run? : Nat → Scanner → Option (List Token)
  | 0, _ => none
  | fuel + 1, s => do
    let s ← s.toNext.dropStale?
    let s := s.unrollTo s.place.column
    match s.place.rest with
    | [] => do
      let s ← (s.unrollTo (-1)).dropKey?
      some s.tokens.toList
    | c :: _ => run? fuel (← s.token? c)

end Scanner

/-- The characters that a document may hold. -/
def isPrintable (c : Char) : Bool :=
  let n := c.toNat
  n == 9 || n == 10 || n == 13 || (0x20 ≤ n && n ≤ 0x7E) || n == 0x85 || (0xA0 ≤ n && n ≤ 0xFFFD) || 0x10000 ≤ n

/-- The tokens of a text. -/
def tokens? (text : List Char) : Option (List Token) :=
  if text.all isPrintable then (Scanner.start text).run? (text.length + 1) else none

end StoreModels.Yaml
