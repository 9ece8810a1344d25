import StoreModels.Yaml.Node

/-!
Reading a document from its tokens. A text that holds no document is a document where nothing is written; a text with
several documents is refused. Mappings inside of sequences in brackets without braces of their own are not part of the
format.
-/
namespace StoreModels.Yaml

/-- What reading goes by: the tokens that follow, what tag handles stand for, the numbers of the names given so far, and
    the nodes that have one. -/
structure Reader where
  tokens : List Token
  handles : List (List Char × List Char)
  numbers : List (List Char × Nat)
  anchors : Nat
  anchored : List Anchored

namespace Reader

/-- The reader after the next token. -/
def skip (r : Reader) : Reader := { r with tokens := r.tokens.tail }

/-- Whether a token comes next. -/
def at? (r : Reader) (token : Token) : Bool := r.tokens.head? = some token

/-- Whether one of some tokens comes next. -/
def atAny (r : Reader) (tokens : List Token) : Bool := tokens.any r.at?

/-- An anchor: a name for the node that follows it. The number of a name is how many names there were before; a name
    given again takes the number that the next new name would. -/
def name (r : Reader) (name : List Char) : Nat × Nat × Reader :=
  let number := r.numbers.length
  let others := r.numbers.filter (·.1 ≠ name)
  (number, r.anchors, { r with numbers := (name, number) :: others, anchors := r.anchors + 1 })

/-- The full text of a tag. -/
def tag? (r : Reader) (handle suffix : List Char) : Option (List Char) :=
  if handle.isEmpty then some suffix else (r.handles.lookup handle).map (· ++ suffix)

/-- The anchor and the tag in front of a node, in any order. -/
def properties? (r : Reader) : Option (Option (List Char) × Option (List Char) × Reader) :=
  match r.tokens with
  | .anchor name :: .tag handle suffix :: rest
  | .tag handle suffix :: .anchor name :: rest => do
    some (some name, some (← r.tag? handle suffix), { r with tokens := rest })
  | .anchor name :: rest => some (some name, none, { r with tokens := rest })
  | .tag handle suffix :: rest => do some (none, some (← r.tag? handle suffix), { r with tokens := rest })
  | _ => some (none, none, r)

/-- The tokens before which a value in a block is left out. -/
def blockStops : List Token := [.key, .value, .blockEnd]

/-- Reads a node. It is told whether it may be a block, and whether its dashes may stand below a key. -/
abbrev NodeReader := (isBlock mayHang : Bool) → Reader → Option (Node × Reader)

/-- The node that follows, or an empty one where one of some tokens does. -/
def nodeUnless (node : Reader → Option (Node × Reader)) (stops : List Token) (r : Reader) : Option (Node × Reader) :=
  if r.atAny stops then some (.empty, r) else node r

/-- The items of a block, each after a dash. -/
def blockItems (node : Reader → Option (Node × Reader)) (stops : List Token) : Nat → Reader →
    Option (List Node × Reader)
  | 0, _ => none
  | fuel + 1, r =>
    if r.at? .dash then do
      let (item, r) ← nodeUnless node (.dash :: stops) r.skip
      let (more, r) ← blockItems node stops fuel r
      some (item :: more, r)
    else some ([], r)

/-- The members of a block. -/
def blockMembers (node : Reader → Option (Node × Reader)) : Nat → Reader → Option (List (Node × Node) × Reader)
  | 0, _ => none
  | fuel + 1, r =>
    if r.at? .key then do
      let (key, r) ← nodeUnless node blockStops r.skip
      let (value, r) ← if r.at? .value then nodeUnless node blockStops r.skip else some (.empty, r)
      let (more, r) ← blockMembers node fuel r
      some ((key, value) :: more, r)
    else some ([], r)

/-- What comes between brackets, with commas between; a comma may follow the last one. -/
def bracketed (item : Reader → Option (α × Reader)) (close : Token) : Nat → Reader → Option (List α × Reader)
  | 0, _ => none
  | fuel + 1, r =>
    if r.at? close then some ([], r.skip)
    else do
      let (a, r) ← item r
      if r.at? close then some ([a], r.skip)
      else if r.at? .comma then
        let (more, r) ← bracketed item close fuel r.skip
        some (a :: more, r)
      else none

/-- A member of a mapping in braces: a key and perhaps a value, or a node that is the key of nothing. -/
def member (node : Reader → Option (Node × Reader)) (r : Reader) : Option ((Node × Node) × Reader) :=
  if r.at? .key then do
    let (key, r) ← nodeUnless node [.value, .comma, .closeBrace] r.skip
    let (value, r) ← if r.at? .value then nodeUnless node [.comma, .closeBrace] r.skip else some (.empty, r)
    some ((key, value), r)
  else do
    let (key, r) ← node r
    some ((key, .empty), r)

/-- A node without its anchor and its tag. -/
def content (node : NodeReader) (isBlock mayHang : Bool) (tag : Option (List Char)) (isNamed : Bool) (r : Reader) :
    Option (Node × Reader) :=
  let fuel := r.tokens.length + 1
  match r.tokens with
  | .dash :: _ =>
    if mayHang then (blockItems (node true false) blockStops fuel r).map fun (items, r) => (.sequence items, r)
    else onlyNamed
  | .scalar style text :: _ => some (.scalar style (if tag = some ['!'] then none else tag) text, r.skip)
  | .openBracket :: _ =>
    (bracketed (node false false) .closeBracket fuel r.skip).map fun (items, r) => (.sequence items, r)
  | .openBrace :: _ =>
    (bracketed (member (node false false)) .closeBrace fuel r.skip).map fun (members, r) => (.mapping members, r)
  | .sequenceStart :: _ =>
    if isBlock then do
      let (items, r) ← blockItems (node true false) [.blockEnd] fuel r.skip
      if r.at? .blockEnd then some (.sequence items, r.skip) else none
    else onlyNamed
  | .mappingStart :: _ =>
    if isBlock then do
      let (members, r) ← blockMembers (node true true) fuel r.skip
      if r.at? .blockEnd then some (.mapping members, r.skip) else none
    else onlyNamed
  | _ => onlyNamed
where
  /-- An anchor or a tag alone makes a node. -/
  onlyNamed : Option (Node × Reader) := if isNamed then some (.scalar .plain tag [], r) else none

/-- A node. The depth bounds how deep nodes stand in one another. -/
def node : Nat → NodeReader
  | 0, _, _, _ => none
  | depth + 1, isBlock, mayHang, r =>
    match r.tokens with
    | .reference name :: _ => (r.numbers.lookup name).map fun number => (.reference number, r.skip)
    | _ => do
      let (name, tag, r) ← r.properties?
      match name with
      | none => content (node depth) isBlock mayHang tag tag.isSome r
      | some name =>
        let (number, order, r) := r.name name
        let (made, r) ← content (node depth) isBlock mayHang tag true r
        some (made, { r with anchored := ⟨number, order, made⟩ :: r.anchored })

/-- What tag handles stand for where nothing else is said. -/
def usualHandles : List (List Char × List Char) := [(['!'], ['!']), (['!', '!'], typeTag "")]

/-- Reads the directives before a document: at most one version, which has to be known, and each handle once. -/
def directives? : List Token → Bool → List (List Char × List Char) →
    Option (List (List Char × List Char) × List Token)
  | .version major minor :: rest, sawVersion, handles =>
    if sawVersion ∨ major ≠ 1 ∨ (minor ≠ 1 ∧ minor ≠ 2) then none else directives? rest true handles
  | .tagPrefix handle text :: rest, sawVersion, handles =>
    if handles.any (·.1 == handle) then none else directives? rest sawVersion ((handle, text) :: handles)
  | rest, _, handles => some (handles, rest)

end Reader

open Reader

/-- The only document of a text. -/
def read? (text : List Char) : Option Document := do
  let all ← tokens? text
  let (handles, tokens) ← directives? all false []
  let isMarked := tokens.head? = some .documentStart
  if !isMarked ∧ tokens.length ≠ all.length then none
  let r : Reader := ⟨if isMarked then tokens.tail else tokens, handles ++ usualHandles, [], 0, []⟩
  let isEmpty := r.tokens.isEmpty || (isMarked && (r.atAny [.documentStart, .documentEnd] ||
    match r.tokens.head? with
    | some (.version ..) | some (.tagPrefix ..) => true
    | _ => false))
  let (root, r) ← if isEmpty then some (Node.empty, r) else node (r.tokens.length + 1) true false r
  if r.tokens.all (· == .documentEnd) then some ⟨root, r.anchored⟩ else none

end StoreModels.Yaml
