import StoreModels.Text.Lines
import StoreModels.Syntax.Role
import StoreModels.Syntax.Tree
import StoreModels.Syntax.Dialect

/-!
Documents: a parsed file whose nodes can be replaced, added and removed. All nodes that a document ever had stay in one
table, so a node keeps its number also when it is cut out of the tree. A node that was parsed knows the text it came
from: the file itself, or a snippet that was added later. Where a place in a document does not hold what an operation
needs there, the operation fails with a mismatch.
-/
namespace StoreModels
open Syntax (Span Tree Dialect Role)

/-! ## Mismatches -/

/-- What does not fit. Kinds are those of the grammar; texts are quoted in the message. -/
inductive Mismatch
  | replacesDetached
  | notAttached
  | removesDetached
  | noObject (kind : String)
  | notSingleExpression (snippet : List Char)
  | commaSequence (snippet : List Char)
  | namespaceKind (kind : String)
  | namespaceLost
  | namespaceNoPair
  | containerKind (key kind : String)
  | dynamicKey (key : String) (description : List Char)
  | unsupportedState (kind : String)
  | unsupportedNumber (raw : List Char)
  | unparsableResult (operation path : String)
  deriving DecidableEq, Repr

/-- The message of a mismatch. -/
def Mismatch.message (m : Mismatch) : String :=
  "Structural mismatch: " ++ match m with
  | replacesDetached => "cannot replace a detached node"
  | notAttached => "node is not attached to its parent"
  | removesDetached => "cannot remove a detached node"
  | noObject kind => "expected an object literal, but got " ++ kind
  | notSingleExpression snippet => "snippet is not a single expression: " ++ String.ofList snippet
  | commaSequence snippet => "snippet is a comma sequence, not a single expression: " ++ String.ofList snippet
  | namespaceKind kind => "namespace should be a string literal, but got " ++ kind
  | namespaceLost => "matched model lost its namespace"
  | namespaceNoPair => "namespace should be a key: value pair"
  | containerKind key kind => key ++ " should be an object literal, but got " ++ kind
  | dynamicKey key description => key ++ " entries need a static key, but got " ++ String.ofList description
  | unsupportedState kind => "unsupported state expression: " ++ kind
  | unsupportedNumber raw => "unsupported state expression: number " ++ String.ofList raw
  | unparsableResult operation path => operation ++ ": edit would leave " ++ path ++ " unparsable"

/-! ## Nodes and documents -/

/-- The number of a node in its document. -/
abbrev NodeId := Nat

/-- The number of a text that nodes of a document come from; the file is number zero. -/
abbrev BufferId := Nat

/-- Where a node comes from: from a part of a text, or from an edit, which gives leaves a text of their own. -/
inductive Origin
  | parsed (buffer : BufferId) (span : Span)
  | written (text : Option (List Char))
  deriving DecidableEq

/-- A node of a document. -/
structure Node where
  kind : String
  origin : Origin
  /-- The field it fills in its parent. -/
  field : Option String
  /-- Whether the grammar gives it a name of its own. -/
  named : Bool
  parent : Option NodeId
  /-- Its children now. -/
  children : List NodeId
  /-- Its children as they were parsed. -/
  firstChildren : List NodeId
  /-- The node whose place it took. -/
  replaces : Option NodeId
  /-- Whether anything in it has changed. -/
  dirty : Bool

namespace Node

/-- A parsed node without children. -/
def parsed (tree : Tree) (buffer : BufferId) (parent : Option NodeId) : Node :=
  { kind := tree.kind, origin := .parsed buffer tree.span, field := tree.field, named := tree.named, parent
    children := [], firstChildren := [], replaces := none, dirty := false }

/-- A node made by an edit, without children. -/
def written (kind : String) (text : Option (List Char)) : Node :=
  { kind, origin := .written text, field := none, named := true, parent := none, children := [], firstChildren := []
    replaces := none, dirty := false }

/-- What stands for a number that no node has. -/
def missing : Node := written "" none

/-- What the node is to the library. -/
def role (node : Node) : Role := Role.ofKind node.kind

/-- The part of a text that the node came from. -/
def span? (node : Node) : Option Span :=
  match node.origin with
  | .parsed _ span => some span
  | .written _ => none

/-- The text that the node came from. -/
def buffer? (node : Node) : Option BufferId :=
  match node.origin with
  | .parsed buffer _ => some buffer
  | .written _ => none

/-- Whether an edit made the node. -/
def isWritten (node : Node) : Bool := node.buffer?.isNone

end Node

/-- A document. -/
structure Document where
  dialect : Dialect
  /-- The file and the snippets. -/
  buffers : List (List Char)
  nodes : Array Node
  root : NodeId
  /-- The indentation unit that the file shows. -/
  shownIndent : Option (List Char)
  /-- The indentation unit where the file shows none. -/
  fallbackIndent : List Char
  newline : Text.Newline

namespace Document

/-- The node with a number. -/
def node (doc : Document) (id : NodeId) : Node := doc.nodes.getD id .missing

/-- The text with a number. -/
def buffer (doc : Document) (id : BufferId) : List Char := doc.buffers.getD id []

/-- The file as it was parsed. -/
def source (doc : Document) : List Char := doc.buffer 0

def role (doc : Document) (id : NodeId) : Role := (doc.node id).role

def children (doc : Document) (id : NodeId) : List NodeId := (doc.node id).children

def parent? (doc : Document) (id : NodeId) : Option NodeId := (doc.node id).parent

/-- One level of indentation. -/
def indentUnit (doc : Document) : List Char := doc.shownIndent.getD doc.fallbackIndent

/-- Whether anything in the file has changed. -/
def isModified (doc : Document) : Bool := (doc.node doc.root).dirty

/-- The children that the grammar names, comments apart. -/
def namedChildren (doc : Document) (id : NodeId) : List NodeId :=
  (doc.children id).filter fun c => (doc.node c).named && doc.role c != .comment

/-- The first child that fills a field. -/
def childByField? (doc : Document) (id : NodeId) (field : String) : Option NodeId :=
  (doc.children id).find? fun c => (doc.node c).field == some field

/-- The nodes below and including one, each before its children, down to a depth. -/
def descend (doc : Document) : Nat → NodeId → List NodeId
  | 0, _ => []
  | depth + 1, id => id :: (doc.children id).flatMap (doc.descend depth)

/-- The nodes below and including one, each before its children. -/
def descendants (doc : Document) (id : NodeId) : List NodeId := doc.descend doc.nodes.size id

/-- The text that a node was parsed from. -/
def parsedText? (doc : Document) (id : NodeId) : Option (List Char) :=
  match (doc.node id).origin with
  | .parsed buffer span => some (Text.slice (doc.buffer buffer) span.start span.stop)
  | .written _ => none

/-- The indentation of the line that a parsed node starts on. -/
def lineIndent (doc : Document) (id : NodeId) : List Char :=
  match (doc.node id).origin with
  | .parsed buffer span => Text.lineIndent (doc.buffer buffer) span.start
  | .written _ => []

/-- The document with one node changed. -/
def update (doc : Document) (id : NodeId) (change : Node → Node) : Document :=
  { doc with nodes := doc.nodes.modify id change }

/-- The document with one more node, and its number. -/
def insert (doc : Document) (node : Node) : Document × NodeId :=
  ({ doc with nodes := doc.nodes.push node }, doc.nodes.size)

mutual

/-- The document with the nodes of a tree added to its table, and the number of the tree's root. -/
def adopt (doc : Document) (buffer : BufferId) (parent : Option NodeId) (tree : Tree) : Document × NodeId :=
  match tree with
  | .node kind named field span children =>
    let (doc, id) := doc.insert (.parsed (.node kind named field span children) buffer parent)
    let (doc, ids) := doc.adoptAll buffer id children
    (doc.update id fun node => { node with children := ids, firstChildren := ids }, id)

/-- The document with the nodes of some siblings added to its table, and their numbers. -/
def adoptAll (doc : Document) (buffer : BufferId) (parent : NodeId) (trees : List Tree) : Document × List NodeId :=
  match trees with
  | [] => (doc, [])
  | tree :: rest =>
    let (doc, id) := doc.adopt buffer (some parent) tree
    let (doc, ids) := doc.adoptAll buffer parent rest
    (doc, id :: ids)

end

/-- The document of a file and its tree. -/
def ofTree (dialect : Dialect) (source : List Char) (tree : Tree) : Document :=
  let doc : Document :=
    { dialect, buffers := [source], nodes := #[], root := 0, shownIndent := Text.indentUnit? source
      fallbackIndent := [' ', ' '], newline := Text.newlineOf source }
  let (doc, root) := doc.adopt 0 none tree
  { doc with root }

/-- The document with another fallback for the indentation unit. -/
def withFallbackIndent (doc : Document) (indent : List Char) : Document := { doc with fallbackIndent := indent }

end Document

end StoreModels
