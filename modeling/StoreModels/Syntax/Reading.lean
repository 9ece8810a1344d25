import StoreModels.Syntax.Automaton
import StoreModels.Syntax.Derivation
import StoreModels.Syntax.Scan
import StoreModels.Syntax.Reader

/-!
Reading a text by all choices that the states leave open. The readings under way share what they have in common: the
symbols read so far are a graph, in which each reading is a path from its head down to the bottom. Readings that come
to the same state at the same position are joined, and when symbols are put together along several paths the better
derivation is kept. A reading that cannot go on is given up as long as another one can.
-/
namespace StoreModels.Syntax

/-- A vertex of the graph: a state, a position of the text, and the symbols that led here from vertices below. -/
structure Vertex where
  state : Nat
  position : Nat
  links : List (Nat × Derivation)
  weight : Int

/-- Whether a reading goes on, has met a token that it cannot read, or is over. -/
inductive Status
  | active
  | stuck
  | over
  deriving DecidableEq, Repr

/-- The head of a reading: its vertex, and the text that it has not read. -/
structure Head where
  top : Nat
  rest : List Char
  status : Status

/-- All readings of a text under way, and the best finished one. -/
structure Readings where
  automaton : Automaton
  vertices : Array Vertex
  heads : Array Head
  finished : Option Derivation

namespace Readings

/-- The most readings that are kept. -/
def mostReadings : Nat := 6

/-- The most links that one vertex has. -/
def mostLinks : Nat := 8

/-- The most paths that are followed downwards at once. -/
def mostPaths : Nat := 64

/-- One reading that has read nothing. -/
def start (t : Tables) (text : List Char) : Readings :=
  ⟨Automaton.start t, #[⟨0, 0, [], 0⟩], #[⟨0, text, .active⟩], none⟩

/-- The vertex with a number. -/
def vertex (r : Readings) (i : Nat) : Vertex := r.vertices.getD i ⟨0, 0, [], 0⟩

/-- The head with a number. -/
def head (r : Readings) (i : Nat) : Head := r.heads.getD i ⟨0, [], .over⟩

/-- What a state can do at a token. -/
def actions (r : Readings) (t : Tables) (state token : Nat) : List Action × Readings :=
  match r with
  | ⟨automaton, vertices, heads, finished⟩ =>
    let (actions, automaton) := automaton.actions t state token
    (actions, ⟨automaton, vertices, heads, finished⟩)

/-- The state after a symbol. -/
def move (r : Readings) (t : Tables) (state : Nat) (symbol : Symbol) : Option Nat × Readings :=
  match r with
  | ⟨automaton, vertices, heads, finished⟩ =>
    let (target, automaton) := automaton.move t state symbol
    (target, ⟨automaton, vertices, heads, finished⟩)

/-- The state that stands for two states. -/
def union? (r : Readings) (t : Tables) (a b : Nat) : Option Nat × Readings :=
  match r with
  | ⟨automaton, vertices, heads, finished⟩ =>
    let (target, automaton) := automaton.union? t a b
    (target, ⟨automaton, vertices, heads, finished⟩)

/-- A new vertex above another one. -/
def push (r : Readings) (below : Nat) (d : Derivation) (state : Nat) : Nat × Readings :=
  let made : Vertex := ⟨state, d.span.stop, [(below, d)], (r.vertex below).weight + d.weight⟩
  (r.vertices.size, { r with vertices := r.vertices.push made })

def setHead (r : Readings) (i : Nat) (h : Head) : Readings := { r with heads := r.heads.setIfInBounds i h }

def setStatus (r : Readings) (i : Nat) (status : Status) : Readings :=
  { r with heads := r.heads.modify i fun h => { h with status } }

/-! ## Joining readings -/

/-- How a new link meets the links that a vertex has. -/
inductive Meeting
  | same (index : Nat)
  | joined (below state : Nat)
  | apart

/-- How a link meets others: it may have the same derivation from the same vertex, or from one that can be joined
    with the other. -/
def meet (r : Readings) (t : Tables) (below : Nat) (d : Derivation) (index : Nat) :
    List (Nat × Derivation) → Meeting × Readings
  | [] => (.apart, r)
  | (other, e) :: rest =>
    if e.isLike d then
      if other = below then (.same index, r)
      else if (r.vertex other).position = (r.vertex below).position then
        let (state, r) := r.union? t (r.vertex other).state (r.vertex below).state
        match state with
        | some state => (.joined other state, r)
        | none => meet r t below d (index + 1) rest
      else meet r t below d (index + 1) rest
    else meet r t below d (index + 1) rest

/-- A vertex with one more link to one below it. The depth bounds how far down vertices are joined. -/
def link (t : Tables) : Nat → Readings → Nat → Nat × Derivation → Readings
  | 0, r, _, _ => r
  | depth + 1, r, i, (below, d) =>
    if below = i then r
    else
      let weight := (r.vertex below).weight + d.weight
      let heavier := fun (r : Readings) =>
        { r with vertices := r.vertices.modify i fun p => { p with weight := max p.weight weight } }
      let (meeting, r) := r.meet t below d 0 (r.vertex i).links
      match meeting with
      | .same index => { r with vertices := r.vertices.modify i fun p =>
          match p.links[index]? with
          | some (_, e) => if e.weight < d.weight then { p with links := p.links.set index (below, d), weight } else p
          | none => p }
      | .joined other state =>
        let links := (r.vertex below).links
        let r := { r with vertices := r.vertices.modify other fun p => { p with state } }
        heavier (links.foldl (fun r l => link t depth r other l) r)
      | .apart =>
        if (r.vertex i).links.length < mostLinks then
          heavier { r with vertices := r.vertices.modify i fun p => { p with links := p.links ++ [(below, d)] } }
        else r

/-- Two heads in one, if they are at the same position and one state stands for both; whether they were. -/
def join (r : Readings) (t : Tables) (a b : Head) : Bool × Readings :=
  if a.status = .active ∧ b.status = .active ∧ (r.vertex a.top).position = (r.vertex b.top).position then
    let (state, r) := r.union? t (r.vertex a.top).state (r.vertex b.top).state
    match state with
    | none => (false, r)
    | some state =>
      if a.top = b.top then (true, r)
      else
        let links := (r.vertex b.top).links
        let r := { r with vertices := r.vertices.modify a.top fun p => { p with state } }
        (true, links.foldl (fun r l => link t (r.vertices.size + 1) r a.top l) r)
  else (false, r)

/-- Joins a head with one of the heads from some number on, another one left out. -/
def joinWithAny (r : Readings) (t : Tables) (h : Head) (except : Nat) : List Nat → Bool × Readings
  | [] => (false, r)
  | i :: rest =>
    if i = except then joinWithAny r t h except rest
    else
      let (joined, r) := r.join t (r.head i) h
      if joined then (true, r) else joinWithAny r t h except rest

/-! ## Putting symbols together -/

/-- A path downwards: the vertex it has come to, the derivations on it, and how many more symbols it has to take. -/
structure Path where
  bottom : Nat
  taken : List Derivation
  left : Nat

/-- A path one link further down. -/
def Path.follow (p : Path) : Nat × Derivation → Path
  | (below, d) => ⟨below, d :: p.taken, if d.isExtra then p.left else p.left - 1⟩

/-- The paths down to where they are done, the shorter ones first. -/
def paths (r : Readings) (isDone : Path → Bool) : Nat → List Path → List Path
  | 0, _ => []
  | depth + 1, current =>
    let (done, others) := current.partition isDone
    if others.isEmpty then done
    else
      let firsts := others.filterMap fun p => ((r.vertex p.bottom).links.head?).map p.follow
      let branches := others.flatMap fun p => ((r.vertex p.bottom).links.drop 1).map p.follow
      done ++ paths r isDone depth ((firsts ++ branches).take mostPaths)

/-- The paths from a vertex that are done. -/
def pathsFrom (r : Readings) (isDone : Path → Bool) (i left : Nat) : List Path :=
  r.paths isDone (r.vertices.size + 1) [⟨i, [], left⟩]

/-- A derivation above a vertex, and the extra tokens after it. -/
structure Result where
  below : Nat
  derivation : Derivation
  after : List Derivation

/-- The results with one more; of two above the same vertex the better one stays. -/
def addResult (results : List Result) (new : Result) : List Result :=
  if results.any (·.below == new.below) then
    results.map fun old =>
      if old.below = new.below ∧ old.derivation.yieldsTo new.derivation then new else old
  else results ++ [new]

/-- What a finished item makes of the symbols below a head. -/
def results (r : Readings) (h : Head) (i : Item) : List Result :=
  if i.position = 0 then
    let position := (r.vertex h.top).position
    [⟨h.top, .node i.production i.part ⟨position, position⟩ 0 [], []⟩]
  else
    (r.pathsFrom (·.left = 0) h.top i.position).foldl (fun known p =>
      let after := (p.taken.reverse.takeWhile (·.isExtra)).reverse
      let steps := p.taken.take (p.taken.length - after.length)
      addResult known ⟨p.bottom, .ofSteps i.production i.part steps, after⟩) []

/-- Puts the symbols of a finished item together. Each result is a new reading, unless it can be joined with one. -/
def reduce (r : Readings) (t : Tables) (v : Nat) (i : Item) : Readings :=
  let h := r.head v
  let weight := (t.productions[i.production]?.map (·.weight)).getD 0
  (r.results h i).foldl (fun r result =>
    let d := result.derivation.weigh weight
    let (state, r) := r.move t (r.vertex result.below).state d.symbol
    match state with
    | none => r
    | some state =>
      let (top, r) := r.push result.below d state
      let (top, r) := result.after.foldl (fun (top, r) e => r.push top e state) (top, r)
      let new : Head := ⟨top, h.rest, .active⟩
      let (joined, r) := r.joinWithAny t new v (List.range r.heads.size)
      if joined then r else { r with heads := r.heads.push new }) r

/-! ## One token -/

/-- The derivations of the whole text: the extra tokens around its root belong to the root. -/
def whole (r : Readings) (h : Head) : List Derivation :=
  (r.pathsFrom (fun p => (r.vertex p.bottom).links.isEmpty) h.top 0).filterMap fun p =>
    let before := p.taken.takeWhile (·.isExtra)
    match p.taken.drop before.length with
    | .node production part span weight children :: after =>
      some (.node production part span weight (before ++ children ++ after))
    | _ => none

/-- The better of the best finished derivation and another one. -/
def finish (r : Readings) (d : Derivation) : Readings :=
  match r.finished with
  | some best => if best.yieldsTo d then { r with finished := some d } else r
  | none => { r with finished := some d }

/-- A reading does what it can at a token; whether it has read the token. -/
def act (r : Readings) (t : Tables) (v : Nat) (found : Found) (action : Action) : Bool × Readings :=
  let h := r.head v
  let position := (r.vertex h.top).position
  let state := (r.vertex h.top).state
  let readAs := fun (r : Readings) (extra : Bool) (state : Nat) =>
    let leaf := Derivation.leaf found.token ⟨position + found.start, position + found.stop⟩ extra
    let (top, r) := r.push h.top leaf state
    (true, r.setHead v ⟨top, h.rest.drop found.stop, .active⟩)
  match action with
  | .shift =>
    let (target, r) := r.move t state (.token found.token)
    readAs r false (target.getD 0)
  | .skip => readAs r true state
  | .accept => (true, ((r.whole h).foldl finish r).setStatus v .over)
  | .reduce item => (false, r.reduce t v (t.item item))

/-- A reading does all that it can at a token, until it has read it. New readings go on in its place; a keyword that
    cannot be read may be read as a name. -/
def readToken (t : Tables) (v : Nat) : Nat → Found → Readings → Readings
  | 0, _, r => r.setStatus v .stuck
  | fuel + 1, found, r =>
    let state := (r.vertex (r.head v).top).state
    let (actions, r) := r.actions t state found.token
    let (read, next, r) := actions.foldl (fun (read, next, r) action =>
      let count := r.heads.size
      let (now, r) := r.act t v found action
      (read || now, if count < r.heads.size then some count else next, r)) (false, none, r)
    if read then r
    else if let some next := next then
      readToken t v fuel found { r with heads := (r.heads.setIfInBounds v (r.head next)).eraseIdxIfInBounds next }
    else
      let name := Lexeme.identifier.index
      let (asName, r) := r.actions t (r.vertex (r.head v).top).state name
      if found.token ≠ name ∧ t.wordTokens.contains found.token ∧ !asName.isEmpty then
        readToken t v fuel { found with token := name } r
      else r.setStatus v .stuck

/-- A reading goes on by one token. -/
def advance (t : Tables) (fuel : Nat) (v : Nat) (r : Readings) : Readings :=
  let h := r.head v
  let state := r.automaton.state (r.vertex h.top).state
  match Scan.next? t state.valid h.rest with
  | some found => readToken t v fuel found r
  | none => r.setStatus v .stuck

/-! ## All readings -/

/-- A reading goes on until it has passed the position that the others have reached. -/
def catchUp (t : Tables) (v : Nat) : Nat → Nat → Readings → Nat × Readings
  | 0, reached, r => (reached, r.setStatus v .stuck)
  | fuel + 1, reached, r =>
    if (r.head v).status = .active then
      let r := r.advance t (fuel + 1) v
      let position := (r.vertex (r.head v).top).position
      if (r.head v).status = .active ∧ (reached < position ∨ 0 < v ∧ position = reached) then (position, r)
      else catchUp t v fuel reached r
    else (reached, r)

/-- Every reading catches up, the new ones among them. -/
def catchUpAll (t : Tables) : Nat → Nat → Nat → Readings → Nat × Readings
  | 0, _, reached, r => (reached, r)
  | fuel + 1, v, reached, r =>
    if v < r.heads.size then
      let (reached, r) := catchUp t v (fuel + 1) reached r
      catchUpAll t fuel (v + 1) reached r
    else (reached, r)

/-- Puts a head among those that are kept, from some number on. A stuck reading gives way to one that is not; the one
    with more weight comes first. -/
def keep (t : Tables) (h : Head) (j : Nat) : Nat → Readings → Readings
  | 0, r => r
  | fuel + 1, r =>
    if hj : j < r.heads.size then
      let other := r.heads[j]
      if other.status ≠ .stuck ∧ h.status = .stuck then r
      else if other.status = .stuck ∧ h.status ≠ .stuck then keep t h j fuel { r with heads := r.heads.eraseIdx j }
      else
        let (joined, r) := r.join t other h
        if joined then r
        else if (r.vertex other.top).weight < (r.vertex h.top).weight then
          keep t other (j + 1) fuel (r.setHead j h)
        else keep t h (j + 1) fuel r
    else { r with heads := r.heads.push h }

/-- The readings that are worth going on with. -/
def select (t : Tables) (r : Readings) : Readings :=
  let heads := r.heads
  let r := heads.foldl (fun r h => if h.status = .over then r else keep t h 0 (2 * heads.size + 2) r)
    { r with heads := #[] }
  { r with heads := r.heads.take mostReadings }

/-- Reads on until no reading is left or all are stuck. -/
def run (t : Tables) : Nat → Nat → Readings → Readings
  | 0, _, r => r
  | fuel + 1, reached, r =>
    let (reached, r) := catchUpAll t (fuel + 1) 0 reached r
    let r := r.select t
    if r.heads.all (·.status = .stuck) then r else run t fuel reached r

/-- More steps than any text of some length takes. -/
def fuelFor (length : Nat) : Nat := 64 * (length + 64)

end Readings

/-- The derivation of a whole text; none if it has none. -/
def derive? (t : Tables) (text : List Char) : Option Derivation :=
  ((Readings.start t text).run t (Readings.fuelFor text.length) 0).finished

/-! ## Whole files -/

/-- The tree of a whole file. It starts at the first token or comment and reaches to the end of the text, and its nodes
    are nested. No token holds a null character. -/
def parseProgram (dialect : Dialect) (text : List Char) : Option Tree := do
  guard !(text.contains '\x00')
  let t := dialect.tables
  let derivation ← derive? t text
  match derivation.trees t none none [] with
  | [program] =>
    let first := match program.children with
      | child :: _ => child.span.start
      | [] => (text.takeWhile Spelling.isSpace).length
    let program := program.withSpan ⟨first, text.length⟩
    if program.isNested then some program else none
  | _ => none

/-- The reader that follows the grammar of the dialects. -/
instance : Reader := ⟨parseProgram⟩

end StoreModels.Syntax
