/-!
The format of configuration documents as far as settings go by it: what can be asked of a node of a document that was
read, and the data that a document is written from.
-/
namespace StoreModels.Yaml

/-- What a document is written from. -/
inductive Data
  | bool (b : Bool)
  | number (n : Nat)
  | texts (items : List (List Char))
  | mapping (members : List (List Char × Data))

/-- A reader and a writer of documents. -/
class Format where
  /-- A node of a document that was read. -/
  Node : Type
  /-- The root of the only document of a text. -/
  read? : List Char → Option Node
  /-- Whether a node stands for nothing. -/
  isNull? : Node → Option Bool
  /-- The truth value of a node. -/
  bool? : Node → Option Bool
  /-- The number of a node, if it is below a limit. -/
  number? : (limit : Nat) → Node → Option Nat
  /-- The text of a node, whatever it might stand for elsewhere. -/
  text? : Node → Option (List Char)
  /-- The items of a sequence. -/
  items? : Node → Option (List Node)
  /-- The members of a mapping. -/
  members? : Node → Option (List (List Char × Node))
  /-- The text of a document with these members. -/
  write : List (List Char × Data) → List Char

end StoreModels.Yaml
