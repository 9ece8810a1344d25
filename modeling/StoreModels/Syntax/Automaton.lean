import StoreModels.Syntax.Tables

/-!
The states of a reader. A state is a set of items, each with the tokens that may follow its part; states are made when
they are first needed. A state and the next token decide what to do: read the token, or put the symbols of a finished
production together. Where ranks and sides leave a choice, all choices are kept.
-/
namespace StoreModels.Syntax

/-- Items with the tokens that may follow their parts. -/
abbrev Kernel := List (Nat × TokenSet)

/-- A state: the items that led here, what may follow each part that can begin here, the tokens that can be read, the
    finished items, and all tokens that can come next. -/
structure State where
  kernel : Kernel
  follow : Array TokenSet
  shifts : TokenSet
  reductions : Kernel
  valid : TokenSet

/-- What to do at a token. -/
inductive Action
  | shift
  | skip
  | reduce (item : Nat)
  | accept
  deriving DecidableEq, Repr

namespace Tables

/-- The tokens that may stand between any two others. -/
def extraTokens : TokenSet := TokenSet.ofList (Grammar.extras.map (·.index))

/-- The tokens that an item can go on with. -/
def firstOfNext (t : Tables) (i : Item) : TokenSet :=
  (i.next.map (firstOf t.first)).getD .empty

/-- The state of a kernel. -/
def state (t : Tables) (kernel : Kernel) : State :=
  let follow := kernel.foldl (fun follow (i, after) =>
    let item := t.item i
    match item.next with
    | some (.part part) =>
      let after := (item.afterNext.map (firstOf t.first)).getD after
      ((t.openings[part]?.map (·.get)).getD []).foldl (fun (follow : Array TokenSet) o =>
        follow.modify o.part fun known =>
          (known.union o.follow).union (if o.last then after else .empty)) follow
    | _ => follow) (Array.replicate t.parts.size TokenSet.empty)
  let shifts := kernel.foldl (fun shifts (i, _) => shifts.union (t.firstOfNext (t.item i))) TokenSet.empty
  let done := kernel.filter fun (i, _) => (t.item i).next.isNone
  let empty := t.empties.filterMap fun (part, i) =>
    let after := follow.getD part .empty
    if after.isEmpty then none else some (i, after)
  let reductions := done ++ empty
  let valid := reductions.foldl (fun valid (_, after) => valid.union after) shifts
  { kernel, follow, shifts, reductions, valid := valid.union extraTokens }

/-- The items in order of position and number, those that are the same put together. -/
def combine (t : Tables) (items : Kernel) : Kernel :=
  let sorted := items.mergeSort fun (a, _) (b, _) =>
    let (p, q) := ((t.item a).position, (t.item b).position)
    decide (p < q ∨ p = q ∧ a ≤ b)
  sorted.foldr (fun (i, after) known => match known with
    | (j, other) :: rest => if i = j then (j, after.union other) :: rest else (i, after) :: known
    | [] => [(i, after)]) []

/-- The kernel after a symbol. -/
def kernelAfter (t : Tables) (s : State) (symbol : Symbol) : Kernel :=
  let moved := s.kernel.filterMap fun (i, after) =>
    let item := t.item i
    if item.next = some symbol then some (item.advanced, after) else none
  let begun := (t.starts.getD symbol []).filterMap fun (part, i) =>
    let after := s.follow.getD part .empty
    if after.isEmpty then none else some (i, after)
  begun ++ t.combine moved

/-! ## Choosing by rank -/

/-- Whether a place in an order is that of a rank or of one of some parts. -/
def isPlaceOf (t : Tables) (rank : Rank) (parts : List Nat) : Grammar.Place → Bool
  | .rank name => rank = .name name
  | .part name => parts.any fun p => t.partName p == name

/-- How two rules compare in one order: the one that comes first binds more tightly. -/
def compareIn (isLeft isRight : Grammar.Place → Bool) : List Grammar.Place → Bool → Bool → Option Ordering
  | [], _, _ => none
  | place :: rest, sawLeft, sawRight =>
    if isLeft place then
      if sawRight then some .lt else compareIn isLeft isRight rest true sawRight
    else if isRight place then
      if sawLeft then some .gt else compareIn isLeft isRight rest sawLeft true
    else compareIn isLeft isRight rest sawLeft sawRight

/-- How two rules compare: by their numbers, else in the first order that holds both. -/
def compareRanks (t : Tables) (left : Rank) (leftParts : List Nat) (right : Rank) (rightParts : List Nat) : Ordering :=
  let byOrder := (Grammar.orders.findSome? fun order =>
    compareIn (t.isPlaceOf left leftParts) (t.isPlaceOf right rightParts) order false false).getD .eq
  match left, right with
  | .number l, .number r => if l = 0 ∧ r = 0 then byOrder else compare l r
  | .number l, .undecided => if l = 0 then byOrder else compare l 0
  | .undecided, .number r => if r = 0 then byOrder else compare 0 r
  | _, _ => byOrder

/-- The finished items that a token lets a state put together, with the rank of the last one, the parts and the sides
    of all of them. -/
structure Finished where
  items : List Nat
  rank : Rank
  parts : List Nat
  sides : List (Option Side)

/-- The finished items at a token, those of a lower rank left out. -/
def finished (t : Tables) (s : State) (token : Nat) : Finished :=
  s.reductions.foldl (fun known (i, after) =>
    let item := t.item i
    if after.contains token then
      let order := if known.items.isEmpty then .gt
        else t.compareRanks item.rank [item.part] known.rank known.parts
      match order with
      | .lt => known
      | .gt => ⟨[i], item.rank, [item.part], [item.side]⟩
      | .eq => ⟨known.items ++ [i], item.rank,
        if known.parts.contains item.part then known.parts else known.parts ++ [item.part],
        item.side :: known.sides⟩
    else known) ⟨[], .undecided, [], []⟩

/-- Whether reading a token and putting items together are two ways to go on with one repetition. -/
def isWithinRepetition (t : Tables) (s : State) (token : Nat) : Bool :=
  let parts := s.kernel.filterMap fun (i, after) =>
    let item := t.item i
    let concerned := match item.next with
      | some symbol => (firstOf t.first symbol).contains token
      | none => after.contains token
    if concerned then some item.part else none
  match parts with
  | part :: rest => rest.all (· == part) && ((t.parts[part]?.map (·.isRepetition)).getD false)
  | [] => false

/-- What to do at a token that can be read although items are finished. Of the rules that would read it and those that
    are finished the ones that bind more tightly win; at equal rank the side on which they nest decides. -/
def resolve (t : Tables) (s : State) (token : Nat) (done : Finished) : List Action :=
  let reduces := done.items.map Action.reduce
  if t.isWithinRepetition s token then reduces
  else
    let orders := s.kernel.filterMap fun (i, _) =>
      let item := t.item i
      if (t.firstOfNext item).contains token then some (t.compareRanks item.rank [item.part] done.rank done.parts)
      else none
    let tighter := orders.contains .gt
    let looser := orders.contains .lt
    if tighter && !looser then [.shift]
    else if looser && !tighter then reduces
    else if tighter then reduces ++ [.shift]
    else if done.sides.all (· = some .left) then reduces
    else if done.sides.all (· = some .right) then [.shift]
    else reduces ++ [.shift]

/-- What a state can do at a token. -/
def actions (t : Tables) (s : State) (token : Nat) : List Action :=
  let done := t.finished s token
  let ends := s.reductions.any fun (i, after) => (t.item i).part == 0 && after.contains token
  if ends then [.accept]
  else if s.shifts.contains token then
    if done.items.isEmpty then [.shift] else t.resolve s token done
  else if done.items.isEmpty then
    if extraTokens.contains token then [.skip] else []
  else done.items.map .reduce

/-! ## States that stand for each other -/

/-- The tokens whose mere possibility changes how a text is split into tokens. -/
def decisive (t : Tables) : TokenSet :=
  TokenSet.ofList (t.orToken :: ([.automaticSemicolon, .signatureEnd, .templateText, .ternaryMark, .markupComment,
    .regexPattern, .markupText, .escapeSequence] : List Lexeme).map (·.index))

/-- The kernel of two states that differ only in what may follow their parts, if the same items are finished at every
    token that both know and the text is split alike. -/
def union? (t : Tables) (a b : State) : Option Kernel :=
  let both := a.valid.inter b.valid
  let same := a.kernel.map (·.1) == b.kernel.map (·.1)
  let alike := !((a.valid.difference b.valid).meets t.decisive)
  let agree := (a.kernel.zip b.kernel).all fun ((i, after), (_, other)) =>
    (t.item i).next.isSome || !((after.difference other).meets both)
  if same && alike && agree then
    some ((a.kernel.zip b.kernel).map fun ((i, after), (_, other)) => (i, after.union other))
  else none

end Tables

/-! ## States made so far -/

/-- The states made so far, numbered, with what has been found out about them. -/
structure Automaton where
  states : Array State
  index : Std.HashMap Kernel Nat
  moves : Std.HashMap (Nat × Symbol) (Option Nat)
  choices : Std.HashMap (Nat × Nat) (List Action)
  unions : Std.HashMap (Nat × Nat) (Option Nat)

namespace Automaton

/-- The state with a number. -/
def state (a : Automaton) (i : Nat) : State := a.states.getD i ⟨[], #[], .empty, [], .empty⟩

/-- The number of the state of a kernel. -/
def numberOf (a : Automaton) (t : Tables) (kernel : Kernel) : Nat × Automaton :=
  match a.index[kernel]? with
  | some i => (i, a)
  | none =>
    let i := a.states.size
    (i, { a with states := a.states.push (t.state kernel), index := a.index.insert kernel i })

/-- The automaton with only its first state. -/
def start (t : Tables) : Automaton :=
  ((⟨#[], {}, {}, {}, {}⟩ : Automaton).numberOf t [(t.root, .single Lexeme.finish.index)]).2

/-- The state after a symbol. -/
def move (a : Automaton) (t : Tables) (i : Nat) (symbol : Symbol) : Option Nat × Automaton :=
  match a.moves[(i, symbol)]? with
  | some target => (target, a)
  | none =>
    match t.kernelAfter (a.state i) symbol with
    | [] => (none, { a with moves := a.moves.insert (i, symbol) none })
    | kernel =>
      let (target, a) := a.numberOf t kernel
      (some target, { a with moves := a.moves.insert (i, symbol) (some target) })

/-- What a state can do at a token. -/
def actions (a : Automaton) (t : Tables) (i token : Nat) : List Action × Automaton :=
  match a.choices[(i, token)]? with
  | some actions => (actions, a)
  | none =>
    let actions := t.actions (a.state i) token
    (actions, { a with choices := a.choices.insert (i, token) actions })

/-- The state that stands for two states, if there is one. -/
def union? (a : Automaton) (t : Tables) (i j : Nat) : Option Nat × Automaton :=
  if i = j then (some i, a)
  else
    let key := (min i j, max i j)
    match a.unions[key]? with
    | some target => (target, a)
    | none =>
      match t.union? (a.state i) (a.state j) with
      | none => (none, { a with unions := a.unions.insert key none })
      | some kernel =>
        let (target, a) := a.numberOf t kernel
        (some target, { a with unions := a.unions.insert key (some target) })

end Automaton

end StoreModels.Syntax
