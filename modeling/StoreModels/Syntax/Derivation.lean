import StoreModels.Syntax.Tables
import StoreModels.Syntax.Tree

/-!
Derivations: how the tokens of a text make up a part, production by production. Where a text has two readings the
derivations are compared. Parts without a node of their own vanish from the tree of a derivation.
-/
namespace StoreModels.Syntax

/-- A token, or the derivations of the steps of a production. A token that stands between others is extra, and no step
    reads it. -/
inductive Derivation
  | leaf (token : Nat) (span : Span) (extra : Bool)
  | node (production part : Nat) (span : Span) (weight : Int) (children : List Derivation)

namespace Derivation

def span : Derivation → Span
  | leaf _ s _ => s
  | node _ _ s _ _ => s

/-- Whether a token stands between others. -/
def isExtra : Derivation → Bool
  | leaf _ _ extra => extra
  | node .. => false

/-- The weight of all productions of a derivation together. -/
def weight : Derivation → Int
  | leaf .. => 0
  | node _ _ _ w _ => w

/-- The symbol of a derivation. -/
def symbol : Derivation → Symbol
  | leaf token _ _ => .token token
  | node _ part _ _ _ => .part part

def children : Derivation → List Derivation
  | leaf .. => []
  | node _ _ _ _ c => c

/-- Whether two derivations are the same to whatever comes after them. -/
def isLike (a b : Derivation) : Bool :=
  a.symbol = b.symbol && a.span = b.span && a.children.length == b.children.length && a.isExtra == b.isExtra

/-- The order of symbols: tokens before parts. -/
def compareSymbols : Symbol → Symbol → Ordering
  | .token i, .token j => compare i j
  | .token _, .part _ => .lt
  | .part _, .token _ => .gt
  | .part i, .part j => compare i j

mutual

/-- An order of derivations: by their symbols, the number of their children, then child by child. -/
def order : Derivation → Derivation → Ordering
  | .leaf token _ _, b => match compareSymbols (.token token) b.symbol with
    | .eq => compare 0 b.children.length
    | o => o
  | .node _ part _ _ children, b => match compareSymbols (.part part) b.symbol with
    | .eq => match compare children.length b.children.length with
      | .eq => orders children b.children
      | o => o
    | o => o

/-- The order of the first children that differ. -/
def orders : List Derivation → List Derivation → Ordering
  | a :: as, b :: bs => match order a b with
    | .eq => orders as bs
    | o => o
  | _, _ => .eq

end

/-- Whether a second reading of the same text is to be taken instead of the first: if it weighs more, or as much and
    comes first in order. -/
def yieldsTo (first second : Derivation) : Bool :=
  if first.weight < second.weight then true
  else if second.weight < first.weight then false
  else first.order second = .gt

/-- The derivation of a production from those of its steps. -/
def ofSteps (production part : Nat) (children : List Derivation) : Derivation :=
  let start := (children.head?.map (·.span.start)).getD 0
  let stop := (children.getLast?.map (·.span.stop)).getD 0
  node production part ⟨start, stop⟩ (children.foldl (fun w c => w + c.weight) 0) children

/-- The derivation with more weight. -/
def weigh (more : Int) : Derivation → Derivation
  | leaf token span extra => leaf token span extra
  | node production part span w children => node production part span (w + more) children

/-! ## Trees -/

mutual

/-- The trees of a derivation in front of others, given the label and the field from the step that read it. -/
def trees (t : Tables) (label : Option Label) (field : Option String) : Derivation → List Tree → List Tree
  | leaf token span _, later =>
    match label with
    | some l => .node l.kind l.named field span [] :: later
    | none => match (t.tokens[token]?).bind (·.kind?) with
      | some (kind, named) => .node kind named field span [] :: later
      | none => later
  | node production part span _ children, later =>
    let steps := (t.productions[production]?.map (·.steps)).getD []
    match label with
    | some l => .node l.kind l.named field span (stepTrees t none steps children []) :: later
    | none =>
      let hasNode := (t.parts[part]?.map (·.hasNode)).getD false
      if hasNode then .node (t.partName part) true field span (stepTrees t none steps children []) :: later
      else stepTrees t field steps children later

/-- The trees of derivations in front of others, given their steps. A step without a field gets the one around it. -/
def stepTrees (t : Tables) (around : Option String) : List (Step Symbol) → List Derivation → List Tree → List Tree
  | _, [], later => later
  | steps, child :: rest, later =>
    if child.isExtra then child.trees t none none (stepTrees t around steps rest later)
    else match steps with
      | step :: steps => child.trees t step.label (step.field.or around) (stepTrees t around steps rest later)
      | [] => child.trees t none around (stepTrees t around [] rest later)

end

end Derivation

end StoreModels.Syntax
