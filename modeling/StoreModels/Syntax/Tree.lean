/-!
Syntax trees as read from a text. A tree has every token of its text at a leaf; whatever stands between two tokens is
blank.
-/
namespace StoreModels.Syntax

/-- A part of a text, from the position before its first character to the position after its last one. -/
structure Span where
  start : Nat
  stop : Nat
  deriving DecidableEq, Repr

/-- A node of the grammar: its kind, whether the grammar gives it a name of its own (tokens like braces have none),
    the field it fills in its parent, its span, and its children in the order of the text. -/
inductive Tree
  | node (kind : String) (named : Bool) (field : Option String) (span : Span) (children : List Tree)

namespace Tree

def kind : Tree → String
  | node k _ _ _ _ => k

def named : Tree → Bool
  | node _ n _ _ _ => n

def field : Tree → Option String
  | node _ _ f _ _ => f

def span : Tree → Span
  | node _ _ _ s _ => s

def children : Tree → List Tree
  | node _ _ _ _ c => c

/-- The tree with another span. -/
def withSpan (span : Span) : Tree → Tree
  | node k n f _ c => node k n f span c

mutual

/-- Whether the children of a node, and theirs in turn, lie one after another inside it. -/
def isNested : Tree → Bool
  | node _ _ _ span children => areNested span.start span.stop children

/-- Whether trees lie one after another between two positions. -/
def areNested (start stop : Nat) : List Tree → Bool
  | [] => start ≤ stop
  | tree :: rest => start ≤ tree.span.start && tree.isNested && areNested tree.span.stop stop rest

end

/-- The children that have a name and are no comments. -/
def parts (tree : Tree) : List Tree := tree.children.filter fun t => t.named && t.kind != "comment"

end Tree

end StoreModels.Syntax
