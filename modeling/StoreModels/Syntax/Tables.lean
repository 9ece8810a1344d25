import Std.Data.HashMap
import Std.Data.HashSet
import StoreModels.Syntax.Grammar
import StoreModels.Syntax.Production

/-!
A grammar with its tokens, parts and productions numbered, and what can be known about it before any text is read: the
tokens that each part can begin with, the parts that stand at the beginning of others, and the items, which are
productions read up to some step. Sets of tokens are kept by the numbers of these.
-/
namespace StoreModels.Syntax

/-- A set of tokens: bit `i` says whether it holds the token with number `i`. -/
structure TokenSet where
  bits : Nat
  deriving DecidableEq, Hashable, Repr

namespace TokenSet

def empty : TokenSet := ⟨0⟩

def single (token : Nat) : TokenSet := ⟨Nat.shiftLeft 1 token⟩

def union (a b : TokenSet) : TokenSet := ⟨Nat.lor a.bits b.bits⟩

/-- The tokens of both sets. -/
def inter (a b : TokenSet) : TokenSet := ⟨Nat.land a.bits b.bits⟩

/-- The tokens of one set that are not in the other. -/
def difference (a b : TokenSet) : TokenSet := ⟨Nat.xor a.bits b.bits⟩

def contains (s : TokenSet) (token : Nat) : Bool := s.bits.testBit token

def isEmpty (s : TokenSet) : Bool := s.bits == 0

/-- The set of the tokens of a list. -/
def ofList (tokens : List Nat) : TokenSet := tokens.foldl (fun s i => s.union (single i)) empty

/-- Whether the sets share a token. -/
def meets (a b : TokenSet) : Bool := !(a.inter b).isEmpty

end TokenSet

/-! ## Numbered grammars -/

/-- A token or a part by its number. -/
inductive Symbol
  | token (index : Nat)
  | part (index : Nat)
  deriving DecidableEq, Hashable, Repr

/-- A part of a numbered grammar. A repetition is a part that only other rules made necessary. -/
structure Part where
  name : String
  hasNode : Bool
  isRepetition : Bool
  alternatives : List Expansion

/-- An alternative of a part, with its symbols numbered. -/
structure Production where
  part : Nat
  steps : List (Step Symbol)
  weight : Int

/-- A production read up to some step. Productions that cannot be told apart from here on share their items: they have
    the same steps left, and gave the same labels and fields before. -/
structure Item where
  production : Nat
  part : Nat
  position : Nat
  rank : Rank
  side : Option Side
  next : Option Symbol
  afterNext : Option Symbol
  advanced : Nat

/-- A part that can stand at the very beginning of another one: the tokens that can follow it inside that part, and
    whether it can also end where that part ends. -/
structure Opening where
  part : Nat
  follow : TokenSet
  last : Bool

/-- A numbered grammar. -/
structure Tables where
  tokens : Array Token
  parts : Array Part
  productions : Array Production
  items : Array Item
  first : Array TokenSet
  openings : Array (Thunk (List Opening))
  starts : Std.HashMap Symbol (List (Nat × Nat))
  empties : List (Nat × Nat)
  root : Nat
  words : Std.HashMap String Nat
  wordTokens : TokenSet
  marks : List (List Char × Nat)
  orToken : Nat

namespace Tables

/-! ## Parts and tokens -/

/-- The part that stands for a whole text: the root, then the end. It has number zero. -/
def wholeText : Part :=
  ⟨"whole text", false, false, [⟨[Surroundings.none.step (.part Grammar.root)], 0⟩]⟩

/-- The expansions without repeated ones. -/
def distinct (expansions : List Expansion) : List Expansion :=
  let add := fun (seen : List Expansion × Std.HashSet Expansion) e =>
    if seen.2.contains e then seen else (e :: seen.1, seen.2.insert e)
  (expansions.foldl add ([], {})).1.reverse

/-- How many inlined parts may stand within one another and in one rule. -/
def inlineDepth : Nat := 64

/-- The parts of a grammar with their alternatives: repetitions stand at the end. -/
def partsOf (definitions : List Definition) : List Part :=
  let (rules, repetitions) := Rule.withoutRepetitions (definitions.map (·.rule)) []
  let named := definitions.zip rules
  let bodies := named.filterMap fun (d, rule) =>
    if d.standing = .inlined then some (d.name, rule.alternatives .none) else none
  let alternativesOf := fun (expansions : List Expansion) => distinct <| expansions.flatMap fun e =>
    (Expansion.inline bodies inlineDepth e.steps).map fun e' =>
      { e' with weight := Expansion.heavier e.weight e'.weight }
  let parts := named.filterMap fun (d, rule) =>
    if d.standing = .inlined then none
    else some ⟨d.name, d.standing = .node, false, alternativesOf (rule.alternatives .none)⟩
  let repeated := repetitions.reverse.map fun (rule, name) =>
    let again := Surroundings.none.step (.part name)
    ⟨name, false, true, ⟨[again, again], 0⟩ :: alternativesOf (rule.alternatives .none)⟩
  wholeText :: parts ++ repeated

/-- The tokens of a grammar: first the classes of lexemes, then the others in the order of their first use. -/
def tokensOf (parts : List Part) : Array Token × Std.HashMap Token Nat :=
  let add := fun (known : Array Token × Std.HashMap Token Nat) t =>
    if known.2.contains t then known else (known.1.push t, known.2.insert t known.1.size)
  let classes := (Lexeme.all.map Token.lexeme).foldl add (#[], {})
  parts.foldl (fun known p => p.alternatives.foldl (fun known e => e.steps.foldl (fun known step =>
    match step.symbol with
    | .token t => add known t
    | .part _ => known) known) known) classes

/-! ## Productions and items -/

/-- The productions of all parts, with their symbols numbered. -/
def productionsOf (parts : List Part) (tokens : Std.HashMap Token Nat) : Array Production :=
  let numbers : Std.HashMap String Nat :=
    (parts.foldl (fun (known, i) p => (known.insert p.name i, i + 1)) (({} : Std.HashMap String Nat), 0)).1
  let symbol : Atom → Symbol
    | .token t => .token (tokens.getD t 0)
    | .part name => .part (numbers.getD name 0)
  (parts.foldl (fun (made, i) p =>
    (p.alternatives.foldl (fun made e =>
      made.push ⟨i, e.steps.map fun s => ⟨symbol s.symbol, s.rank, s.side, s.label, s.field⟩, e.weight⟩) made,
      i + 1)) ((#[] : Array Production), 0)).1

/-- What tells items apart. `left` numbers the steps still to be read, `read` the labels and fields of those that have
    been. -/
structure ItemKey where
  part : Nat
  position : Nat
  length : Nat
  weight : Int
  rank : Rank
  side : Option Side
  left : Nat
  read : Nat
  deriving DecidableEq, Hashable

/-- The items made so far. -/
structure Items where
  items : Array Item
  index : Std.HashMap ItemKey Nat
  lefts : Std.HashMap (Step Symbol × Nat) Nat
  reads : Std.HashMap (Nat × Option Label × Option String) Nat

namespace Items

/-- The number of the steps left to read, given the number of those after the first. -/
def leftAfter (known : Items) (step : Step Symbol) (rest : Nat) : Nat × Items :=
  match known.lefts[(step, rest)]? with
  | some n => (n, known)
  | none =>
    let n := known.lefts.size + 1
    (n, { known with lefts := known.lefts.insert (step, rest) n })

/-- The number of the labels and fields of the steps read, given the number of those before the last. -/
def readAfter (known : Items) (read : Nat) (step : Step Symbol) : Nat × Items :=
  match known.reads[(read, step.label, step.field)]? with
  | some n => (n, known)
  | none =>
    let n := known.reads.size + 1
    (n, { known with reads := known.reads.insert (read, step.label, step.field) n })

/-- The items of a production from some position on: the number of the first one, and of the steps it has left. -/
def addFrom (index : Nat) (p : Production) (length : Nat) (known : Items) (position read : Nat)
    (previous : Option (Step Symbol)) : List (Step Symbol) → Nat × Nat × Items
  | [] =>
    let (item, known) := add known 0 none none 0
    (item, 0, known)
  | step :: rest =>
    let (read', known) := known.readAfter read step
    let (advanced, left, known) := addFrom index p length known (position + 1) read' (some step) rest
    let (left, known) := known.leftAfter step left
    let (item, known) := add known left (some step.symbol) (rest.head?.map (·.symbol)) advanced
    (item, left, known)
where
  add (known : Items) (left : Nat) (next afterNext : Option Symbol) (advanced : Nat) : Nat × Items :=
    let rank := (previous.map (·.rank)).getD .undecided
    let side := previous.bind (·.side)
    let key : ItemKey := ⟨p.part, position, length, p.weight, rank, side, left, read⟩
    match known.index[key]? with
    | some item => (item, known)
    | none =>
      let item := known.items.size
      let made : Item := ⟨index, p.part, position, rank, side, next, afterNext, advanced⟩
      (item, { known with items := known.items.push made, index := known.index.insert key item })

end Items

/-- All items, and of each production the number of its item at the beginning. -/
def itemsOf (productions : Array Production) : Array Item × Array Nat :=
  let start : Items := ⟨#[], {}, {}, {}⟩
  let (_, known, begins) := productions.foldl (fun (index, known, begins) p =>
    let (item, _, known) := Items.addFrom index p p.steps.length known 0 0 none p.steps
    (index + 1, known, begins.push item)) (0, start, (#[] : Array Nat))
  (known.items, begins)

/-! ## What parts begin with -/

/-- The tokens that a symbol can begin with, as far as known for parts. -/
def firstOf (first : Array TokenSet) : Symbol → TokenSet
  | .token i => .single i
  | .part i => first.getD i .empty

/-- The tokens that each part can begin with, after a number of rounds through all productions. -/
def firstSets (productions : Array Production) : Nat → Array TokenSet → Array TokenSet
  | 0, first => first
  | rounds + 1, first =>
    let next := productions.foldl (fun first p => match p.steps with
      | [] => first
      | step :: _ => first.setIfInBounds p.part ((first.getD p.part .empty).union (firstOf first step.symbol))) first
    if next == first then first else firstSets productions rounds next

/-- The parts that directly begin an alternative of a part. -/
def directOpenings (productions : Array Production) (first : Array TokenSet) : Array (List Opening) :=
  let table : Array (Std.HashMap Nat (TokenSet × Bool)) := Array.replicate first.size {}
  let table := productions.foldl (fun table p => match p.steps with
    | ⟨.part child, _, _, _, _⟩ :: rest =>
      table.modify p.part fun known =>
        let (follow, last) := known.getD child (.empty, false)
        match rest with
        | [] => known.insert child (follow, true)
        | step :: _ => known.insert child (follow.union (firstOf first step.symbol), last)
    | _ => table) table
  table.map fun known => known.toList.map fun (part, follow, last) => ⟨part, follow, last⟩

/-- What is known about the parts at the beginning of a part, once nothing changes any more. -/
def spread (direct : Array (List Opening)) : Nat → List Nat → Array (Option (TokenSet × Bool)) →
    Array (Option (TokenSet × Bool))
  | 0, _, known => known
  | _, [], known => known
  | fuel + 1, part :: rest, known =>
    let (follow, last) := (known.getD part none).getD (.empty, false)
    let (work, known) := (direct.getD part []).foldl (fun (work, known) o =>
      let (oldFollow, oldLast) := (known.getD o.part none).getD (.empty, false)
      let newFollow := (oldFollow.union o.follow).union (if o.last then follow else .empty)
      let newLast := oldLast || (o.last && last)
      if (known.getD o.part none).isSome && newFollow == oldFollow && newLast == oldLast then (work, known)
      else (o.part :: work, known.setIfInBounds o.part (some (newFollow, newLast)))) (rest, known)
    spread direct fuel work known

/-- The parts that can stand at the very beginning of a part, the part itself among them. -/
def openingsOf (direct : Array (List Opening)) (tokens : Nat) (part : Nat) : List Opening :=
  let start := (Array.replicate direct.size none).setIfInBounds part (some (TokenSet.empty, true))
  let known := spread direct (direct.size * (tokens + 2)) [part] start
  (List.range direct.size).filterMap fun i =>
    (known.getD i none).map fun (follow, last) => ⟨i, follow, last⟩

/-! ## The whole -/

/-- A word or keyword, as against a mark. -/
def isWord (text : String) : Bool := text.toList.all fun c => c.isAlpha || c == '_'

/-- The tables of a grammar. -/
def build (definitions : List Definition) : Tables :=
  let parts := partsOf definitions
  let (tokens, tokenNumbers) := tokensOf parts
  let productions := productionsOf parts tokenNumbers
  let (items, begins) := itemsOf productions
  let first := firstSets productions parts.length (Array.replicate parts.length .empty)
  let direct := directOpenings productions first
  let itemAt := fun (i : Nat) => items.getD i ⟨0, 0, 0, .undecided, none, none, none, 0⟩
  let starts := begins.foldl (fun (starts : Std.HashMap Symbol (List (Nat × Nat))) b =>
    let item := itemAt b
    match item.next with
    | some symbol => starts.alter symbol fun known =>
      let known := known.getD []
      some (if known.contains (item.part, item.advanced) then known else (item.part, item.advanced) :: known)
    | none => starts) {}
  let empties := begins.toList.filterMap fun b =>
    if (itemAt b).next.isNone then some ((itemAt b).part, b) else none
  let texts := tokens.toList.zipIdx.filterMap fun (t, i) => t.text?.map fun text => (text, i)
  let words := (texts.filter fun (text, _) => isWord text).foldl (fun words (text, i) => words.insert text i)
    ({} : Std.HashMap String Nat)
  let marks := (texts.filter fun (text, _) => !isWord text).map fun (text, i) => (text.toList, i)
  { tokens, productions, items, first, empties, words
    parts := parts.toArray
    openings := ((List.range parts.length).map fun i => Thunk.mk fun _ => openingsOf direct tokens.size i).toArray
    starts := starts.map fun _ known => known.mergeSort fun a b => decide (a.2 ≤ b.2)
    root := begins.getD 0 0
    wordTokens := TokenSet.ofList (Lexeme.identifier.index :: words.toList.map (·.2))
    orToken := tokenNumbers.getD (.spelled "||") 0
    marks := marks.mergeSort fun a b => decide (b.1.length ≤ a.1.length) }

/-- The item with a number. -/
def item (t : Tables) (i : Nat) : Item := t.items.getD i ⟨0, 0, 0, .undecided, none, none, none, 0⟩

/-- The name of a part. -/
def partName (t : Tables) (i : Nat) : String := (t.parts[i]?.map (·.name)).getD ""

end Tables

/-- The tables of the dialect without markup. -/
def typedTables : Tables := Tables.build (Grammar.definitions .typed)

/-- The tables of the dialect with markup. -/
def markupTables : Tables := Tables.build (Grammar.definitions .markup)

/-- The tables of a dialect. -/
def Dialect.tables : Dialect → Tables
  | .typed => typedTables
  | .markup => markupTables

end StoreModels.Syntax
