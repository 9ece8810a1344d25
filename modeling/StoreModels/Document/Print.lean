import StoreModels.Document.Layout

/-!
Printing with the format kept. A parsed node that nothing has changed prints as the text it came from. A changed node
prints its children one by one with the text between them; a changed object literal that gained or lost entries gets
commas and line breaks in its own style.
-/
namespace StoreModels
open Syntax (Span Role)
open Text (slice trim trimStart trimEnd)

/-- How a child is printed: the child, the indentation of its line, and the text its parent came from. -/
abbrev ChildPrinter := NodeId → List Char → BufferId → List Char

/-- Texts with another text between each two. -/
def joinWith (separator : List Char) : List (List Char) → List Char
  | [] => []
  | [part] => part
  | part :: rest => part ++ separator ++ joinWith separator rest

/-- The indentation of the last line of a text. -/
def lastIndent (text : List Char) : List Char := (Text.lastLine text).takeWhile Text.isIndent

namespace Document

/-- A child on the indentation `base`. A node from another text is printed as it is there and then moved over. -/
def printChild (doc : Document) (print : ChildPrinter) (child : NodeId) (base : List Char) (context : BufferId) :
    List Char :=
  match (doc.node child).buffer? with
  | some buffer =>
    if buffer = context then print child base context
    else Text.reindent (print child [] buffer) base doc.newline.text
  | none => print child base context

/-- Entries on lines of their own. -/
def printLines (doc : Document) (print : ChildPrinter) (entries : List NodeId) (indent : List Char)
    (context : BufferId) : List Char :=
  let line := doc.newline.text ++ indent
  line ++ joinWith (',' :: line) (entries.map fun entry => doc.printChild print entry indent context)

/-- A node made by an edit, from its children. -/
def printWritten (doc : Document) (print : ChildPrinter) (node : Node) (base : List Char) (context : BufferId) :
    List Char :=
  match node.role with
  | .object =>
    if node.children.isEmpty then ['{', '}']
    else '{' :: doc.printLines print node.children (base ++ doc.indentUnit) context ++ doc.newline.text ++ base ++ ['}']
  | .pair => joinWith [':', ' '] (node.children.map fun child => doc.printChild print child base context)
  | _ => node.children.flatMap fun child => doc.printChild print child base context

/-- Children in the places of the ones they were parsed with, from position `cursor` on. -/
def printPlaces (doc : Document) (print : ChildPrinter) (buffer : BufferId) (stop : Nat) :
    Nat → List (NodeId × NodeId) → List Char
  | cursor, [] => slice (doc.buffer buffer) cursor stop
  | cursor, (first, child) :: rest =>
    match (doc.node first).span? with
    | none => doc.printPlaces print buffer stop cursor rest
    | some span =>
      slice (doc.buffer buffer) cursor span.start ++
        doc.printChild print child (Text.lineIndent (doc.buffer buffer) span.start) buffer ++
        doc.printPlaces print buffer stop span.stop rest

/-- A changed node other than an object literal. -/
def printParts (doc : Document) (print : ChildPrinter) (node : Node) (buffer : BufferId) (span : Span) : List Char :=
  if node.children.length = node.firstChildren.length then
    doc.printPlaces print buffer span.stop span.start (node.firstChildren.zip node.children)
  else
    let base := Text.lineIndent (doc.buffer buffer) span.start
    node.children.flatMap fun child => doc.printChild print child base buffer

/-- An object literal that had no entries: the new ones go on lines of their own below its comments. -/
def printExpanded (doc : Document) (print : ChildPrinter) (entries : List NodeId) (inner base : List Char)
    (buffer : BufferId) : List Char :=
  let comments := trimEnd inner
  let bare := (trim comments).isEmpty
  let indent := if comments.contains '\n' && !bare then lastIndent comments else base ++ doc.indentUnit
  '{' :: (if bare then [] else comments) ++ doc.printLines print entries indent buffer ++ doc.newline.text ++ base ++
    ['}']

/-- An object literal that lost all its entries keeps the comments above the first and below the last one. -/
def printEmptied (doc : Document) (opening before after base closing : List Char) : List Char :=
  let kept := trimEnd before ++ trimEnd after
  if (trim kept).isEmpty then ['{', '}']
  else
    opening ++ kept ++
      (if kept.contains '\n' || Text.endsInLineComment kept then doc.newline.text ++ base else [' ']) ++ closing

/-- What stands behind an entry: its comma, which may have to be added or left out, and its comments. -/
def printTail (text : List Char) (slot : Option Slot) (wantsComma : Bool) : List Char :=
  match slot with
  | none => if wantsComma then [','] else []
  | some slot =>
    match slot.comma, wantsComma with
    | some comma, false => slice text slot.span.stop comma.start ++ slice text comma.stop slot.tailEnd
    | none, true => ',' :: slice text slot.span.stop slot.tailEnd
    | _, _ => slice text slot.span.stop slot.tailEnd

/-- How the entries of a changed object literal are set. -/
structure Setting where
  text : List Char
  buffer : BufferId
  layout : Layout
  /-- The indentation of the entries. -/
  indent : List Char
  /-- Whether the first entry stands on a line of its own. -/
  multiline : Bool
  lineBreak : List Char

/-- What separates two entries that stand at some positions of the layout: the gap before the second, else the gap
    behind the first, else a line break or a blank. -/
def Setting.gap (setting : Setting) (previous position : Option Nat) : List Char :=
  let fallback := if setting.multiline then setting.lineBreak else [' ']
  let behind := match previous with
    | some p => if p + 1 < setting.layout.slots.length then setting.layout.gapBefore setting.text (p + 1) else fallback
    | none => fallback
  match position with
  | some q => if 0 < q then setting.layout.gapBefore setting.text q else behind
  | none => behind

/-- The comments above an entry. -/
def Setting.lead (setting : Setting) (slot : Option Slot) : List Char :=
  match slot with
  | some { lead := some start, span, .. } => slice setting.text start span.start
  | _ => []

/-- Entries after one at position `previous`; `isFirst` tells that there is none, and `lineComment` that what is
    printed so far ends in a line comment. Returns also whether the whole ends in one. -/
def printEntries (doc : Document) (print : ChildPrinter) (setting : Setting) :
    Bool → Option Nat → Bool → List (NodeId × Option Nat) → List Char × Bool
  | _, _, lineComment, [] => ([], lineComment)
  | isFirst, previous, lineComment, (entry, position) :: rest =>
    let gap :=
      if isFirst then []
      else
        let gap := setting.gap previous position
        if lineComment && !gap.contains '\n' then setting.lineBreak else gap
    let slot := position.bind fun q => setting.layout.slots[q]?
    let trailing := (setting.layout.slots.getLast?.bind (·.comma)).isSome
    let tail := printTail setting.text slot (!rest.isEmpty || trailing)
    let (more, ending) :=
      doc.printEntries print setting false position ((slot.map (·.lineComment)).getD false) rest
    (gap ++ setting.lead slot ++ doc.printChild print entry setting.indent setting.buffer ++ tail ++ more, ending)

/-- A changed object literal that had entries and has some. -/
def printObjectEntries (doc : Document) (print : ChildPrinter) (text : List Char) (buffer : BufferId) (layout : Layout)
    (base : List Char) (entries : List NodeId) : List Char :=
  let before := layout.before text
  let after := layout.after text
  let multiline := before.contains '\n'
  let indent := if multiline then lastIndent before else base
  let setting : Setting := { text, buffer, layout, indent, multiline, lineBreak := doc.newline.text ++ indent }
  let positions := entries.map fun entry => (entry, doc.slotOf layout.slots entry)
  let (body, lineComment) := doc.printEntries print setting true none false positions
  slice text layout.span.start layout.openEnd ++ before ++ body ++
    (if lineComment && !after.contains '\n' then doc.newline.text ++ base ++ trimStart after else after) ++
    slice text layout.closeStart layout.span.stop

/-- A changed object literal. -/
def printObject (doc : Document) (print : ChildPrinter) (id : NodeId) (buffer : BufferId) (span : Span) : List Char :=
  let text := doc.buffer buffer
  let base := Text.lineIndent text span.start
  let layout := doc.layout id text span
  let entries := (doc.children id).filter fun c => (doc.role c).isEntry
  if layout.slots.isEmpty then
    if entries.isEmpty then slice text span.start span.stop
    else doc.printExpanded print entries (slice text layout.openEnd layout.closeStart) base buffer
  else if entries.isEmpty then
    doc.printEmptied (slice text span.start layout.openEnd) (layout.before text) (layout.after text) base
      (slice text layout.closeStart span.stop)
  else doc.printObjectEntries print text buffer layout base entries

/-- A node by means of its children's printer. -/
def printWith (doc : Document) (print : ChildPrinter) (id : NodeId) (base : List Char) (context : BufferId) :
    List Char :=
  let node := doc.node id
  match node.origin with
  | .written (some text) => if node.children.isEmpty then text else doc.printWritten print node base context
  | .written none => doc.printWritten print node base context
  | .parsed buffer span =>
    if !node.dirty then slice (doc.buffer buffer) span.start span.stop
    else if node.role = .object then doc.printObject print id buffer span
    else doc.printParts print node buffer span

/-- A node down to a depth. `base` is the indentation of the line it starts on and `context` the text that the nearest
    parsed node above it came from. -/
def printDown (doc : Document) : Nat → ChildPrinter
  | 0, _, _, _ => []
  | depth + 1, id, base, context => doc.printWith (doc.printDown depth) id base context

/-- A depth that no tree of a document exceeds. -/
def depth (doc : Document) : Nat := doc.nodes.size + 1

/-- The text of a node now, from its own first line on. -/
def printNode (doc : Document) (id : NodeId) : List Char :=
  doc.printDown doc.depth id [] ((doc.node id).buffer?.getD 0)

/-- The whole file now. -/
def print (doc : Document) : List Char :=
  match (doc.node doc.root).span? with
  | none => doc.printNode doc.root
  | some span =>
    doc.source.take span.start ++ doc.printDown doc.depth doc.root [] 0 ++ doc.source.drop span.stop

end Document

end StoreModels
