import StoreModels.Document.Print
import StoreModels.Literal.Quoted

/-!
Entries of object literals: their keys, their values, and finding them by name.
-/
namespace StoreModels

/-- How an entry is keyed: by a bare name (also of a shorthand or a method), by a literal, by an expression in
    brackets, or not at all because it spreads another object. -/
inductive EntryKey
  | identifier (name : List Char)
  | literal (name : List Char)
  | computed
  | spread
  deriving DecidableEq, Repr

namespace EntryKey

/-- The name, where it is written bare. -/
def identifier? : EntryKey → Option (List Char)
  | identifier name => some name
  | _ => none

/-- The name, where it is known without running the program. -/
def name? : EntryKey → Option (List Char)
  | identifier name | literal name => some name
  | _ => none

/-- What a message calls the key. -/
def describe : EntryKey → List Char
  | identifier name | literal name => name
  | computed => "[computed]".toList
  | spread => "...".toList

end EntryKey

namespace Document

/-- The current text of a node. -/
def text (doc : Document) (id : NodeId) : List Char := doc.printNode id

/-- The key that a node in a key's place makes. -/
def keyOf (doc : Document) (key : NodeId) : EntryKey :=
  match doc.role key with
  | .propertyIdentifier | .identifier => .identifier (doc.text key)
  | .stringLiteral => .literal (Literal.unquoted (doc.text key))
  | .numberLiteral => .literal (doc.text key)
  | _ => .computed

/-- The key of an entry; none for nodes that are no entries. -/
def entryKey? (doc : Document) (entry : NodeId) : Option EntryKey :=
  match doc.role entry with
  | .pair => (doc.childByField? entry "key").map doc.keyOf
  | .methodDefinition => (doc.childByField? entry "name").map doc.keyOf
  | .shorthandProperty => some (.identifier (doc.text entry))
  | .spreadElement => some .spread
  | _ => none

/-- The value of a `key: value` entry. -/
def pairValue? (doc : Document) (entry : NodeId) : Option NodeId :=
  if doc.role entry = .pair then doc.childByField? entry "value" else none

/-- What an entry holds: the value of a pair, and otherwise the entry itself. -/
def entryBody (doc : Document) (entry : NodeId) : NodeId := (doc.pairValue? entry).getD entry

/-- The entries of an object literal. -/
def entries (doc : Document) (object : NodeId) : List NodeId :=
  (doc.children object).filter fun c => (doc.role c).isEntry

/-- The bare name of an entry. -/
def entryIdentifier? (doc : Document) (entry : NodeId) : Option (List Char) :=
  (doc.entryKey? entry).bind EntryKey.identifier?

/-- The name of an entry. -/
def entryName? (doc : Document) (entry : NodeId) : Option (List Char) := (doc.entryKey? entry).bind EntryKey.name?

/-- The last entry of an object literal with a bare name. -/
def entryNamed? (doc : Document) (object : NodeId) (name : List Char) : Option NodeId :=
  ((doc.entries object).filter fun e => doc.entryIdentifier? e == some name).getLast?

/-- The entries of an object literal with a name. -/
def entriesNamed (doc : Document) (object : NodeId) (name : List Char) : List NodeId :=
  (doc.entries object).filter fun e => doc.entryName? e == some name

end Document

end StoreModels
