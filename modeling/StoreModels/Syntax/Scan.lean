import StoreModels.Syntax.Spelling
import StoreModels.Syntax.Tables

/-!
The next token of a text. Which tokens are possible at a place decides what is looked for there: the end of a line can
stand for a semicolon, a slash can begin a regular expression, and blanks between markup elements are text. Among the
other tokens the longest possible one is taken.
-/
namespace StoreModels.Syntax

/-- A token found in a text, by the offsets of its first character and of what follows it. -/
structure Found where
  token : Nat
  start : Nat
  stop : Nat
  deriving DecidableEq, Repr

namespace Scan
open Spelling

/-- A character that the rules for line ends count as blank. -/
def isBlank (c : Char) : Bool := c == ' ' || ('\t' ≤ c && c ≤ '\r')

/-- The next character, or a null character at the end of the text. -/
def ahead (text : List Char) : Char := text.headD '\x00'

/-! ## Semicolons at the end of a line -/

/-- Where a place is among blanks and comments. -/
inductive Between
  | blanks
  | line
  | block
  deriving DecidableEq, Repr

/-- What follows blanks and comments, and whether a line comment was among them; none if a slash follows that begins no
    comment. -/
def afterComments : Between → Bool → List Char → Option (List Char) × Bool
  | .blanks, _, '/' :: '/' :: rest => afterComments .line true rest
  | .blanks, sawLine, '/' :: '*' :: rest => afterComments .block sawLine rest
  | .blanks, sawLine, '/' :: _ => (none, sawLine)
  | .blanks, sawLine, c :: rest => if isBlank c then afterComments .blanks sawLine rest else (some (c :: rest), sawLine)
  | .line, sawLine, '\n' :: rest => afterComments .blanks sawLine rest
  | .block, sawLine, '*' :: '/' :: rest => afterComments .blanks sawLine rest
  | place, sawLine, _ :: rest => afterComments place sawLine rest
  | _, sawLine, [] => (some [], sawLine)

/-- Whether a line may end before a text, as far as the text tells: not before the second operand of an operator. A
    bracket goes on with an expression, but not with a type. -/
def mayFollowLine (inExpression beforeBody : Bool) (text : List Char) : Bool :=
  let c := ahead text
  if ",.;*%><=?^|&/:".toList.contains c then false
  else if c = '{' then !beforeBody
  else if c = '(' ∨ c = '[' then !inExpression
  else match text with
    | '+' :: rest => ahead rest = '+'
    | '-' :: rest => ahead rest = '-'
    | '!' :: rest => ahead rest ≠ '='
    | 'i' :: 'n' :: rest =>
      if !(ahead rest).isAlpha then false
      else if "stanceof".toList.isPrefixOf rest then (ahead (rest.drop 8)).isAlpha
      else true
    | _ => true

/-- The outcome of looking for the end of a line: whether it stands for a semicolon, and if not, how far away a question
    mark stands that may go on with a conditional expression. -/
structure LineEnd where
  found : Bool
  branch : Option Nat
  deriving DecidableEq, Repr

/-- Whether a semicolon may be thought of here: before the end of the text, before a closing brace unless a type follows
    it, and at the end of a line. -/
def lineEnd (inExpression beforeBody : Bool) (text : List Char) : LineEnd :=
  let branch := fun (rest : List Char) => if ahead rest = '?' then some (text.length - rest.length) else none
  match text.dropWhile fun c => isBlank c && c ≠ '\n' with
  | [] => ⟨true, none⟩
  | '}' :: rest => if ahead (rest.dropWhile isBlank) = ':' then ⟨inExpression, none⟩ else ⟨true, none⟩
  | '\n' :: rest => match afterComments .blanks false rest with
    | (none, _) => ⟨false, none⟩
    | (some rest, sawLine) =>
      ⟨mayFollowLine inExpression beforeBody rest, if sawLine then none else branch rest⟩
  | c :: rest => ⟨false, branch (c :: rest)⟩

/-! ## Tokens that belong to a place -/

/-- A question mark that begins the second part of a conditional expression, and neither an optional member nor an
    optional parameter. -/
def ternaryMark? (text : List Char) : Option (Nat × Nat) :=
  let start := text.takeWhile isBlank
  match text.drop start.length with
  | '?' :: rest =>
    if ahead rest = '?' ∨ ahead rest = '.' then none
    else
      let span := (start.length, start.length + 1)
      match rest.dropWhile isBlank with
      | ':' :: _ | ')' :: _ | ',' :: _ => none
      | '.' :: more => if (ahead more).isDigit then some span else none
      | _ => some span
  | _ => none

/-- A comment in the manner of markup documents, which goes to the end of its line. -/
def markupComment? (text : List Char) : Option (Nat × Nat) :=
  let start := (text.takeWhile fun c => isBlank c || c == '\u2028' || c == '\u2029').length
  let body := fun (opening : Nat) =>
    let rest := text.drop (start + opening)
    let n := (rest.takeWhile fun c => c ≠ '\n' && c ≠ '\u2028' && c ≠ '\u2029').length
    some (start, start + opening + n)
  match text.drop start with
  | '<' :: '!' :: '-' :: '-' :: _ => body 4
  | '-' :: '-' :: '>' :: _ => body 3
  | _ => none

/-- The text between markup elements. Blanks that begin with a line break are no text by themselves. -/
def markupText? (text : List Char) : Option (Nat × Nat) :=
  let body := text.takeWhile fun c => !("<>\x7b\x7d&".toList.contains c)
  let (hasText, _) := body.foldl (fun (hasText, afterBreak) c =>
    if c = '\n' then (hasText, true)
    else
      let afterBreak := afterBreak && isBlank c
      (hasText || !afterBreak, afterBreak)) (false, false)
  if hasText then some (0, body.length) else none

/-- A non-empty lexeme at the very start of a text. -/
def here (length : Nat) : Option (Nat × Nat) := if length = 0 then none else some (0, length)

/-- The token that only the possible tokens of a place tell from others. -/
def placed? (isValid : Lexeme → Bool) (inExpression : Bool) (text : List Char) : Option Found :=
  let found := fun (l : Lexeme) (span : Option (Nat × Nat)) =>
    span.map fun (start, stop) => (⟨l.index, start, stop⟩ : Found)
  if isValid .templateText then
    if isValid .automaticSemicolon then none
    else found .templateText ((templateText? text).bind here)
  else
    match (if isValid .markupText then markupText? text else none) with
    | some (start, stop) => some ⟨Lexeme.markupText.index, start, stop⟩
    | none =>
      if isValid .automaticSemicolon || isValid .signatureEnd then
        let ending := lineEnd inExpression (isValid .signatureEnd) text
        if ending.found then some ⟨Lexeme.automaticSemicolon.index, 0, 0⟩
        else match ending.branch with
          | some n =>
            if isValid .ternaryMark then
              found .ternaryMark ((ternaryMark? (text.drop n)).map fun (start, stop) => (n + start, n + stop))
            else none
          | none => none
      else if isValid .ternaryMark then found .ternaryMark (ternaryMark? text)
      else if !inExpression && !isValid .escapeSequence && !isValid .regexPattern then
        found .markupComment (markupComment? text)
      else if isValid .regexPattern then found .regexPattern ((regexPattern? false text).bind here)
      else none

/-- The length of plain text inside quotes, and of the slash that closes a regular expression. -/
def quotedLength (text : List Char) : Lexeme → Nat
  | .doubleQuotedText => quotedText '"' text
  | .singleQuotedText => quotedText '\'' text
  | .doubleQuotedMarkup => quotedMarkup '"' text
  | .singleQuotedMarkup => quotedMarkup '\'' text
  | .regexEnd => if ahead text = '/' then 1 else 0
  | _ => 0

/-- A token with a `quotedLength`: these go before all other tokens. -/
def quoted? (isValid : Lexeme → Bool) (text : List Char) : Option Found :=
  let lexemes : List Lexeme :=
    [.doubleQuotedText, .singleQuotedText, .doubleQuotedMarkup, .singleQuotedMarkup, .regexEnd]
  (lexemes.find? fun l => isValid l && quotedLength text l ≠ 0).map fun l => ⟨l.index, 0, quotedLength text l⟩

/-! ## The longest token -/

/-- A token that may be the next one: a spelled mark goes before a lexeme that must follow at once, and that before any
    other of the same length. -/
structure Candidate where
  found : Found
  priority : Nat

/-- The better of two candidates: the longer one, then the one with the higher priority. -/
def Candidate.better (a b : Candidate) : Candidate :=
  if a.found.stop < b.found.stop then b
  else if a.found.stop = b.found.stop ∧ a.priority < b.priority then b
  else a

/-- A word: a keyword where that keyword is possible, otherwise an identifier. -/
def wordToken (t : Tables) (valid : TokenSet) (word : List Char) : Nat :=
  match t.words[String.ofList word]? with
  | some i => if valid.contains i then i else Lexeme.identifier.index
  | none => Lexeme.identifier.index

/-- The candidates at a place, after blanks. -/
def candidates (t : Tables) (valid : TokenSet) (text : List Char) : List Candidate :=
  let isValid := fun (l : Lexeme) => valid.contains l.index
  let space := (text.takeWhile isSpace).length
  let rest := text.drop space
  let start := if isValid .markupText then 0 else space
  let lexeme := fun (token : Nat) (start stop : Nat) (priority : Nat) =>
    if start < stop then [(⟨⟨token, start, stop⟩, priority⟩ : Candidate)] else []
  let plain := fun (l : Lexeme) (length : Nat) =>
    if isValid l ∧ 0 < length then lexeme l.index start (space + length) 0 else []
  let word := word rest
  let words := if 0 < word ∧ valid.meets t.wordTokens then lexeme (wordToken t valid (rest.take word)) start (space + word) 0 else []
  let mark := (t.marks.find? fun (text, i) => valid.contains i && text.isPrefixOf rest).map fun (text, i) =>
    lexeme i start (space + text.length) 2
  let content := match text with
    | c :: _ => if isValid .tagContent ∧ c ≠ '\n' then lexeme Lexeme.tagContent.index 0 1 0 else []
    | [] => []
  (if isValid .escapeSequence then lexeme Lexeme.escapeSequence.index 0 (escape text) 1 else []) ++
    (if isValid .regexFlags then lexeme Lexeme.regexFlags.index 0 (regexFlags text) 1 else []) ++
    plain .comment ((comment? rest).getD 0) ++ words ++ plain .markupName (markupName rest) ++
    plain .number (number rest) ++ plain .privateName (privateName rest) ++
    plain .interpreterLine (interpreterLine rest) ++ plain .characterReference (characterReference rest) ++
    content ++ mark.getD []

/-- The next token of a text, among the tokens that are possible there. -/
def next? (t : Tables) (valid : TokenSet) (text : List Char) : Option Found :=
  let isValid := fun (l : Lexeme) => valid.contains l.index
  let inExpression := valid.contains t.orToken
  match placed? isValid inExpression text with
  | some found => some found
  | none =>
    match quoted? isValid text with
    | some found => some found
    | none =>
      match candidates t valid text with
      | c :: rest => some (rest.foldl Candidate.better c).found
      | [] =>
        if text.all isSpace then some ⟨Lexeme.finish.index, text.length, text.length⟩ else none

end Scan

end StoreModels.Syntax
