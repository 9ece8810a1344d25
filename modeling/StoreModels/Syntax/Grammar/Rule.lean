import StoreModels.Syntax.Grammar.Token

/-!
Rules of a grammar as data. A rule says which sequences of tokens and parts make up a part, and how to choose where two
rules fit the same tokens: by the rank of a rule, by the side on which it nests, or by the weight of a finished reading.
-/
namespace StoreModels.Syntax

/-- On which side rules of the same rank nest. -/
inductive Side
  | left
  | right
  deriving DecidableEq, Hashable, Repr

/-- How tightly a rule binds: undecided, by a number, or by a name that the orders of the grammar compare. -/
inductive Rank
  | undecided
  | number (n : Int)
  | name (n : String)
  deriving DecidableEq, Hashable, Repr

instance (n : Nat) : OfNat Rank n := ⟨.number n⟩

instance : Neg Rank where
  neg
    | .number n => .number (-n)
    | r => r

instance : Coe String Rank := ⟨.name⟩

/-- The kind that a rule gives to the node of a part, and whether it is a name of its own. -/
structure Label where
  kind : String
  named : Bool
  deriving DecidableEq, Hashable, Repr

/-- What a part of the language is made of. -/
inductive Rule
  | token (t : Token)
  | part (name : String)
  | seq (rules : List Rule)
  | choice (rules : List Rule)
  | many1 (rule : Rule)
  | ranked (rank : Rank) (rule : Rule)
  | nested (rank : Rank) (side : Side) (rule : Rule)
  | weighted (weight : Int) (rule : Rule)
  | field (name : String) (rule : Rule)
  | labelled (label : Label) (rule : Rule)
  deriving BEq

namespace Rule

/-- A text stands for the mark or word that it spells. -/
instance : Coe String Rule := ⟨fun text => .token (.spelled text)⟩

/-- A class of lexemes stands for its lexemes. -/
instance : Coe Lexeme Rule := ⟨fun l => .token (.lexeme l)⟩

/-- A word or mark whose node has a kind of its own. -/
def word (kind text : String) : Rule := .token (.named kind text)

/-- Nothing at all. -/
def nothing : Rule := seq []

/-- A rule that may be left out. -/
def opt (rule : Rule) : Rule := choice [rule, nothing]

/-- Any number of times. -/
def many (rule : Rule) : Rule := opt (many1 rule)

/-- One or more, with a separator between each two. -/
def separated (separator rule : Rule) : Rule := seq [rule, many (seq [separator, rule])]

/-- One or more, with a comma between each two. -/
def commas1 (rule : Rule) : Rule := separated "," rule

/-- Any number, with a comma between each two. -/
def commas (rule : Rule) : Rule := opt (commas1 rule)

/-- A rule that nests to the left. -/
def leftward (rank : Rank) (rule : Rule) : Rule := nested rank .left rule

/-- A rule that nests to the right. -/
def rightward (rank : Rank) (rule : Rule) : Rule := nested rank .right rule

/-- A rule whose node gets another kind. -/
def renamed (kind : String) (rule : Rule) : Rule := labelled ⟨kind, true⟩ rule

/-- A rule whose node is an unnamed token of some spelling. -/
def respelled (spelling : String) (rule : Rule) : Rule := labelled ⟨spelling, false⟩ rule

end Rule

/-- How a part shows in a tree: as a node, only by its children, or as if its rule stood wherever it is named. -/
inductive Standing
  | node
  | group
  | inlined
  deriving DecidableEq, Repr

/-- A part of the language with its rule. -/
structure Definition where
  name : String
  standing : Standing
  rule : Rule

/-- A part with a node of its own; its name is the kind of the node. -/
def node (name : String) (rule : Rule) : Definition := ⟨name, .node, rule⟩

/-- A part that only gives a name to its rule. -/
def group (name : String) (rule : Rule) : Definition := ⟨name, .group, rule⟩

/-- A part that is replaced by its rule before tokens are looked at. -/
def inlined (name : String) (rule : Rule) : Definition := ⟨name, .inlined, rule⟩

end StoreModels.Syntax
