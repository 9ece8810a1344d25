import StoreModels.Literal.Number
import StoreModels.Yaml.Token

/-!
Nodes of a configuration document, and what a scalar stands for where a truth value, a number or nothing is wanted.
Only a plain scalar, one without quotes, stands for anything but its text; so does a scalar of lines of its own that has
the tag of what is wanted.
-/
namespace StoreModels.Yaml

/-- A node. A reference stands for the node with its number. -/
inductive Node
  | scalar (style : Style) (tag : Option (List Char)) (text : List Char)
  | sequence (items : List Node)
  | mapping (members : List (Node × Node))
  | reference (number : Nat)

/-- The node where nothing is written. -/
def Node.empty : Node := .scalar .plain none []

/-- A node that references can stand for: its number, and how many nodes with an anchor came before it. -/
structure Anchored where
  number : Nat
  order : Nat
  node : Node

/-- A document: its node, and those that references stand for. -/
structure Document where
  root : Node
  anchored : List Anchored

/-- The node that a reference stands for: of several with one number the last. -/
def Document.resolve (d : Document) : Node → Node
  | .reference number =>
    let latest := d.anchored.foldl (fun (best : Option Anchored) a =>
      if a.number = number then
        match best with
        | some b => if b.order < a.order then some a else best
        | none => some a
      else best) none
    (latest.map (·.node)).getD .empty
  | node => node

/-! ## Words -/

/-- The words for nothing. -/
def nullWords : List String := ["null", "Null", "NULL", "~"]

/-- The words for truth. -/
def trueWords : List String := ["true", "True", "TRUE"]

/-- The words for falsehood. -/
def falseWords : List String := ["false", "False", "FALSE"]

/-- The truth value that a word stands for. -/
def boolOf? (text : List Char) : Option Bool :=
  if trueWords.contains (String.ofList text) then some true
  else if falseWords.contains (String.ofList text) then some false
  else none

/-- Whether a word stands for nothing. -/
def isNullWord (text : List Char) : Bool := nullWords.contains (String.ofList text)

/-- A text without one plus sign in front. -/
def dropPlus : List Char → List Char
  | '+' :: rest => rest
  | text => text

/-- The number that a word stands for: decimal digits that do not start with a spare zero, or digits of another base
    after `0x`, `0o` or `0b`. A plus sign may come first. -/
def numberOf? (text : List Char) : Option Nat :=
  match dropPlus text with
  | '0' :: 'x' :: digits => Literal.number? 16 digits
  | '0' :: 'o' :: digits => Literal.number? 8 digits
  | '0' :: 'b' :: digits => Literal.number? 2 digits
  | '0' :: _ :: _ => none
  | digits => Literal.number? 10 digits

/-- The tag of the language for a type. -/
def typeTag (type : String) : List Char := "tag:yaml.org,2002:".toList ++ type.toList

/-- Whether a scalar may stand for a value of a type. -/
def mayStandFor (type : String) : Style → Option (List Char) → Bool
  | .plain, _ => true
  | .literal, tag => tag = some (typeTag type)
  | .other, _ => false

/-! ## Nodes in their document -/

/-- A node seen in its document, with references followed. -/
structure View where
  document : Document
  node : Node

namespace View

/-- The root of a document. -/
def root (d : Document) : View := ⟨d, d.root⟩

/-- The node, a reference followed. -/
def resolved (v : View) : Node := v.document.resolve v.node

/-- Whether a node stands for nothing; none if it has the tag of nothing and is something. -/
def isNull? (v : View) : Option Bool :=
  match v.resolved with
  | .scalar .plain (some tag) text =>
    if tag = typeTag "null" then if isNullWord text then some true else none else some false
  | .scalar .plain none text => some (text.isEmpty || isNullWord text)
  | _ => some false

/-- The text of a scalar, whatever it might stand for elsewhere. -/
def text? (v : View) : Option (List Char) :=
  match v.resolved with
  | .scalar _ _ text => some text
  | _ => none

/-- The truth value of a node. -/
def bool? (v : View) : Option Bool :=
  match v.resolved with
  | .scalar style tag text => if mayStandFor "bool" style tag then boolOf? text else none
  | _ => none

/-- The number of a node, if it is below a limit. -/
def number? (limit : Nat) (v : View) : Option Nat :=
  match v.resolved with
  | .scalar style tag text => if mayStandFor "int" style tag then (numberOf? text).filter (· < limit) else none
  | _ => none

/-- The items of a sequence; nothing written is a sequence without items. -/
def items? (v : View) : Option (List View) :=
  match v.resolved with
  | .sequence items => some (items.map fun node => ⟨v.document, node⟩)
  | .scalar .plain _ [] => some []
  | _ => none

/-- The members of a mapping whose keys are scalars; nothing written is a mapping without members. -/
def members? (v : View) : Option (List (List Char × View)) :=
  match v.resolved with
  | .mapping members => members.mapM fun (key, node) =>
    ((⟨v.document, key⟩ : View).text?).map fun name => (name, ⟨v.document, node⟩)
  | .scalar .plain _ [] => some []
  | _ => none

end View

/-- A text as a scalar that reads back as that text: in quotes where the text alone would stand for something else. -/
def scalarText (text : List Char) : List Char :=
  if (boolOf? text).isSome || isNullWord text then '\'' :: text ++ ['\''] else text

end StoreModels.Yaml
