/-!
The tokens of the script language: marks and words with a fixed spelling, and classes of lexemes told apart by their
characters.
-/
namespace StoreModels.Syntax

/-- The classes of lexemes. Some of them stand for text that only a certain place gives a meaning to: an invisible
    semicolon at the end of a line, the raw text of a template or of a markup element. -/
inductive Lexeme
  | finish
  | automaticSemicolon
  | signatureEnd
  | templateText
  | ternaryMark
  | markupComment
  | regexPattern
  | markupText
  | identifier
  | comment
  | privateName
  | markupName
  | number
  | interpreterLine
  | characterReference
  | regexFlags
  | regexEnd
  | escapeSequence
  | doubleQuotedText
  | singleQuotedText
  | doubleQuotedMarkup
  | singleQuotedMarkup
  | tagContent
  deriving DecidableEq, Hashable, Repr

namespace Lexeme

/-- The classes in the order of their numbers. -/
def all : List Lexeme :=
  [finish, automaticSemicolon, signatureEnd, templateText, ternaryMark, markupComment, regexPattern, markupText,
    identifier, comment, privateName, markupName, number, interpreterLine, characterReference, regexFlags, regexEnd,
    escapeSequence, doubleQuotedText, singleQuotedText, doubleQuotedMarkup, singleQuotedMarkup, tagContent]

/-- The number of a class, which is also its number as a token. -/
def index (l : Lexeme) : Nat := l.ctorIdx

/-- The kind of a node for a lexeme and whether it is a name of its own; none for lexemes without a node. -/
def kind? : Lexeme → Option (String × Bool)
  | markupComment => some ("html_comment", true)
  | regexPattern => some ("regex_pattern", true)
  | markupText => some ("jsx_text", true)
  | identifier => some ("identifier", true)
  | comment => some ("comment", true)
  | privateName => some ("private_property_identifier", true)
  | markupName => some ("jsx_identifier", true)
  | number => some ("number", true)
  | interpreterLine => some ("hash_bang_line", true)
  | characterReference => some ("html_character_reference", true)
  | regexFlags => some ("regex_flags", true)
  | regexEnd => some ("/", false)
  | escapeSequence => some ("escape_sequence", true)
  | _ => none

end Lexeme

/-- A token of the grammar: a class of lexemes, a mark or word known by its spelling, or one with a kind of its own. -/
inductive Token
  | lexeme (l : Lexeme)
  | spelled (text : String)
  | named (kind text : String)
  deriving DecidableEq, Hashable, Repr

namespace Token

/-- The spelling of a token that has one. -/
def text? : Token → Option String
  | lexeme _ => none
  | spelled text => some text
  | named _ text => some text

/-- The kind of a node for a token and whether it is a name of its own. -/
def kind? : Token → Option (String × Bool)
  | lexeme l => l.kind?
  | spelled text => some (text, false)
  | named kind _ => some (kind, true)

end Token

end StoreModels.Syntax
