import StoreModels.Literal.Number
import StoreModels.Yaml.Place

/-!
Scalars in a text: plain ones, those in single or double quotes, and those in blocks of lines of their own. A plain or
quoted scalar may go on over several lines; one line break inside it counts as a blank, and of several in a row the
first does not count.
-/
namespace StoreModels.Yaml

/-! ## Gaps -/

/-- What stands between two parts of a scalar: the blanks of a line, or a first line break and those after it. -/
inductive Gap
  | blanks (text : List Char)
  | breaks (first more : List Char)
  deriving DecidableEq, Repr

namespace Gap

/-- The text that a gap adds to a scalar. -/
def fold : Gap → List Char
  | .blanks text => text
  | .breaks ['\n'] [] => [' ']
  | .breaks ['\n'] more => more
  | .breaks first more => first ++ more

/-- The gap with one more blank; blanks around line breaks do not count. -/
def blank (c : Char) : Gap → Gap
  | .blanks text => .blanks (text ++ [c])
  | gap => gap

/-- The gap with one more line break. -/
def lineBreak (text : List Char) : Gap → Gap
  | .blanks _ => .breaks text []
  | .breaks first more => .breaks first (more ++ text)

def crossesLine : Gap → Bool
  | .blanks _ => false
  | .breaks .. => true

end Gap

/-- The gap from a place on, after one that has begun. A tab may not stand left of column `floor` at the start of a
    line. -/
def readGap (floor : Int) : Nat → Gap → Place → Option (Gap × Place)
  | 0, gap, p => some (gap, p)
  | fuel + 1, gap, p =>
    match p.rest with
    | c :: _ =>
      if isBlank c then
        if c = '\t' ∧ gap.crossesLine ∧ (p.column : Int) < floor then none
        else readGap floor fuel (gap.blank c) (p.skip 1)
      else if isBreak c then readGap floor fuel (gap.lineBreak p.breakText) p.skipBreak
      else some (gap, p)
    | [] => some (gap, p)

/-! ## Plain scalars -/

/-- The marks that end a plain scalar inside brackets. -/
def flowMarks : List Char := [',', '[', ']', '{', '}']

/-- The marks that no plain scalar starts with, as such. -/
def marks : List Char :=
  ['-', '?', ':', ',', '[', ']', '{', '}', '#', '&', '*', '!', '|', '>', '\'', '"', '%', '@', '`']

/-- Whether a plain scalar starts here. -/
def startsPlain (inFlow : Bool) : List Char → Bool
  | [] => false
  | c :: rest =>
    if marks.contains c then
      !startsBlank rest && (c == '-' || (!inFlow && (c == '?' || c == ':')))
    else !startsBlank (c :: rest)

/-- The length of the part of a plain scalar up to the next blank, line break or mark that ends it. -/
def plainPart (inFlow : Bool) : List Char → Option Nat
  | [] => some 0
  | c :: rest =>
    if startsBlank (c :: rest) then some 0
    else if c = ':' ∧ startsBlank rest then some 0
    else if c = ':' ∧ inFlow ∧ (rest.head?.map fun d => ('?' :: flowMarks).contains d) = some true then none
    else if inFlow ∧ flowMarks.contains c then some 0
    else (plainPart inFlow rest).map (· + 1)

/-- The rest of a plain scalar after some of it and a gap; whether the last gap crosses a line, and the place after the
    scalar and the gap that follows it. -/
def plainFrom (inFlow : Bool) (floor : Int) : Nat → List Char → Gap → Place → Option (List Char × Bool × Place)
  | 0, text, gap, p => some (text, gap.crossesLine, p)
  | fuel + 1, text, gap, p =>
    if p.atBoundary || p.atChar '#' then some (text, gap.crossesLine, p)
    else do
      let n ← plainPart inFlow p.rest
      let (text, gap) := if n = 0 then (text, gap) else (text ++ gap.fold ++ p.rest.take n, Gap.blanks [])
      let p := p.skip n
      if p.rest.isEmpty || !startsBlank p.rest then some (text, gap.crossesLine, p)
      else
        let (gap, p) ← readGap floor (p.rest.length + 1) gap p
        if !inFlow && (p.column : Int) < floor then some (text, gap.crossesLine, p)
        else plainFrom inFlow floor fuel text gap p

/-- A plain scalar. Its further lines start at column `floor` or right of it, but for those inside brackets. -/
def plain (inFlow : Bool) (floor : Int) (p : Place) : Option (List Char × Bool × Place) :=
  plainFrom inFlow floor p.rest.length [] (.blanks []) p

/-! ## Quoted scalars -/

/-- What a character after a backslash stands for. -/
def escapes : List (Char × Nat) :=
  [('0', 0x00), ('a', 0x07), ('b', 0x08), ('t', 0x09), ('\t', 0x09), ('n', 0x0A), ('v', 0x0B), ('f', 0x0C), ('r', 0x0D),
    ('e', 0x1B), (' ', 0x20), ('"', 0x22), ('/', 0x2F), ('\\', 0x5C), ('N', 0x85), ('_', 0xA0), ('L', 0x2028),
    ('P', 0x2029)]

/-- How many digits follow an escape for a character code. -/
def codeLength? : Char → Option Nat
  | 'x' => some 2
  | 'u' => some 4
  | 'U' => some 8
  | _ => none

/-- The character of an escape and the number of characters after the backslash. -/
def readEscape? : List Char → Option (Char × Nat)
  | [] => none
  | c :: rest =>
    match codeLength? c with
    | some n => do
      if (rest.take n).length ≠ n then none
      let code ← Literal.number? 16 (rest.take n)
      if code.isValidChar then some (Char.ofNat code, n + 1) else none
    | none => (escapes.lookup c).map fun code => (Char.ofNat code, 1)

/-- One step in the inside of quotes. -/
inductive QuotedStep
  | char (c : Char) (length : Nat)
  | joinedLine
  | close
  | gap
  deriving DecidableEq, Repr

/-- What comes next inside quotes. -/
def quotedStep? (quote : Char) : List Char → Option QuotedStep
  | [] => none
  | c :: rest =>
    if startsBlank (c :: rest) then some .gap
    else if c = quote then
      if quote = '\'' ∧ rest.head? = some '\'' then some (.char '\'' 2) else some .close
    else if c = '\\' ∧ quote = '"' then
      if !rest.isEmpty ∧ startsBreak rest then some .joinedLine
      else (readEscape? rest).map fun (d, n) => .char d (n + 1)
    else some (.char c 1)

/-- The rest of a scalar in quotes, and the place after the closing quote. A line break after a backslash does not
    count, nor do the blanks after it. -/
def quotedFrom (quote : Char) : Nat → List Char → Place → Option (List Char × Place)
  | 0, _, _ => none
  | fuel + 1, text, p => do
    if p.atBoundary then none
    match ← quotedStep? quote p.rest with
    | .close => some (text, p.skip 1)
    | .char c n => quotedFrom quote fuel (text ++ [c]) (p.skip n)
    | .gap =>
      let (gap, p) ← readGap 0 (p.rest.length + 1) (.blanks []) p
      quotedFrom quote fuel (text ++ gap.fold) p
    | .joinedLine =>
      let p := (p.skip 1).skipBreak
      let (gap, p) ← readGap 0 (p.rest.length + 1) (.breaks [] []) p
      quotedFrom quote fuel (text ++ gap.fold) p

/-- A scalar in quotes. -/
def quoted (p : Place) : Option (List Char × Place) :=
  match p.rest with
  | c :: _ => if c = '\'' ∨ c = '"' then quotedFrom c p.rest.length [] (p.skip 1) else none
  | [] => none

/-! ## Blocks of lines -/

/-- What becomes of the line breaks at the end of a block: one stays, none do, or all do. -/
inductive Ending
  | clip
  | strip
  | keep
  deriving DecidableEq, Repr

/-- The first line of a block after its mark: how it ends, and how far it is indented if that is said. -/
structure BlockHeader where
  ending : Ending
  indent : Nat
  deriving DecidableEq, Repr

/-- The sign for the ending of a block. -/
def ending? : List Char → Option Ending
  | '+' :: _ => some .keep
  | '-' :: _ => some .strip
  | _ => none

/-- The digit for the indentation of a block; zero is refused. -/
def indent? : List Char → Option (Option Nat)
  | c :: _ => if c = '0' then none else some ((Literal.digitOf? 10 c))
  | [] => some none

/-- The header of a block and the place of its first line. The sign and the digit may come in any order. -/
def blockHeader? (p : Place) : Option (BlockHeader × Place) := do
  let (ending, indent, p) ← match ending? p.rest with
    | some ending => do
      let p := p.skip 1
      let indent ← indent? p.rest
      some (ending, indent, if indent.isSome then p.skip 1 else p)
    | none => do
      let indent ← indent? p.rest
      let p := if indent.isSome then p.skip 1 else p
      match indent, ending? p.rest with
      | some n, some ending => some (ending, some n, p.skip 1)
      | indent, _ => some (.clip, indent, p)
  let p ← p.endLine?
  some (⟨ending, indent.getD 0⟩, p)

/-- The empty lines from a place on: their breaks, the furthest column reached, and the place of the first other line.
    While the indentation is not known (zero) all spaces belong to it. -/
def blockBreaks (indent : Nat) : Nat → Nat → List Char → Place → Option (List Char × Nat × Place)
  | 0, furthest, breaks, p => some (breaks, furthest, p)
  | fuel + 1, furthest, breaks, p =>
    let spaces := (p.rest.takeWhile (· == ' ')).length
    let p := p.skip (if indent = 0 then spaces else min spaces (indent - p.column))
    let furthest := max furthest p.column
    if p.atChar '\t' && (indent == 0 || p.column < indent) then none
    else match p.rest with
      | c :: _ =>
        if isBreak c then blockBreaks indent fuel furthest (breaks ++ p.breakText) p.skipBreak
        else some (breaks, furthest, p)
      | [] => some (breaks, furthest, p)

/-- The lines of a block at its indentation: the text before, the break and the empty lines after the last line, and
    whether that line begins with a blank. In a folded block a break between two lines that do not counts as a blank. -/
def blockLines (folded : Bool) (indent : Nat) : Nat → List Char → (lead trail : List Char) → Bool → Place →
    Option (List Char × List Char × List Char × Place)
  | 0, text, lead, trail, _, p => some (text, lead, trail, p)
  | fuel + 1, text, lead, trail, wasBlank, p =>
    match p.rest with
    | [] => some (text, lead, trail, p)
    | c :: _ =>
      if p.column ≠ indent then some (text, lead, trail, p)
      else do
        let joined := if folded ∧ lead = ['\n'] ∧ !wasBlank ∧ !isBlank c then
            if trail.isEmpty then [' '] else []
          else lead
        let line := p.rest.takeWhile (!isBreak ·)
        let p := p.skip line.length
        let lead := p.breakText
        let (trail', _, p) ← blockBreaks indent (p.rest.length + 1) 0 [] p.skipBreak
        blockLines folded indent fuel (text ++ joined ++ trail ++ line) lead trail' (isBlank c) p

/-- A scalar in a block, from the place after its mark on. `parent` is the column of what the block belongs to. -/
def block (folded : Bool) (parent : Int) (p : Place) : Option (List Char × Place) := do
  let (header, p) ← blockHeader? p
  let fuel := p.rest.length + 1
  let given := if header.indent = 0 then 0 else (max parent 0).toNat + header.indent
  let (trail, furthest, p) ← blockBreaks given fuel 0 [] p
  let indent := if given = 0 then max (max furthest (parent + 1).toNat) 1 else given
  let (text, lead, trail, p) ← blockLines folded indent fuel [] [] trail false p
  let tail := match header.ending with
    | .strip => []
    | .clip => lead
    | .keep => lead ++ trail
  some (text ++ tail, p)

end StoreModels.Yaml
