import StoreModels.Document.Basic

/-!
The layout of a parsed object literal. Every comment inside a literal belongs to an entry or to the literal itself: a
comment that ends the line of an entry, or stands before its comma, goes with that entry; any other comment goes with
the entry below it; comments above the first entry and below the last one belong to the literal. So the literal falls
into a prefix, the entries with their leads, tails and gaps, and a suffix.
-/
namespace StoreModels
open Syntax (Span Role)

/-- A child of an object literal with its place in the text. -/
structure Item where
  id : NodeId
  kind : String
  span : Span

namespace Item

def isEntry (item : Item) : Bool := (Role.ofKind item.kind).isEntry

def isComma (item : Item) : Bool := item.kind == ","

def isComment (item : Item) : Bool := Role.ofKind item.kind == .comment

end Item

/-- An entry of an object literal and the text that goes with it. -/
structure Slot where
  id : NodeId
  span : Span
  /-- Where the comments above the entry start. -/
  lead : Option Nat
  comma : Option Span
  /-- The end of the comma and of the comments behind the entry. -/
  tailEnd : Nat
  /-- Whether the tail ends in a line comment. -/
  lineComment : Bool

/-- What stands between two entries, or after the last one, shared out. -/
structure Closing where
  comma : Option Span
  tailEnd : Nat
  lineComment : Bool
  /-- Where the comments that belong to the next entry start. -/
  lead : Option Nat

/-- The items before the first entry, and each entry with the items up to the next one. -/
def groupItems : List Item → List Item × List (Item × List Item)
  | [] => ([], [])
  | item :: rest =>
    let (head, groups) := groupItems rest
    if item.isEntry then ([], (item, head) :: groups) else (item :: head, groups)

/-- The items after an entry shared out between it and the next one, which starts at `next`. The first comma is the
    entry's; `passed` tells whether it has been seen. -/
def closeGap (text : List Char) (entry : Span) (next : Option Nat) : Bool → Closing → List Item → Closing
  | _, closing, [] => closing
  | passed, closing, item :: rest =>
    if item.isComma && !passed then
      closeGap text entry next true
        { closing with tailEnd := max closing.tailEnd item.span.stop, lineComment := false, comma := some item.span } rest
    else if item.isComment then
      let beforeComma := !passed && rest.any Item.isComma
      let sameLine := !(Text.slice text entry.stop item.span.start).contains '\n'
      let endsLine := match next with
        | none => true
        | some n => (Text.slice text item.span.stop n).contains '\n'
      let closing :=
        if closing.lead.isSome then closing
        else if beforeComma || (sameLine && endsLine) then
          { closing with
            tailEnd := item.span.stop
            lineComment := ['/', '/'].isPrefixOf (Text.slice text item.span.start item.span.stop) }
        else { closing with lead := some item.span.start }
      closeGap text entry next passed closing rest
    else closeGap text entry next passed closing rest

/-- The slots of entries, given where the comments above the first one start. -/
def slotsOf (text : List Char) : Option Nat → List (Item × List Item) → List Slot
  | _, [] => []
  | lead, (entry, gap) :: rest =>
    let next := rest.head?.map fun (e, _) => e.span.start
    let closing := closeGap text entry.span next false ⟨none, entry.span.stop, false, none⟩ gap
    { id := entry.id, span := entry.span, lead, comma := closing.comma, tailEnd := closing.tailEnd
      lineComment := closing.lineComment } :: slotsOf text closing.lead rest

/-- The shape of an object literal as it was parsed. -/
structure Layout where
  span : Span
  /-- The end of the opening brace. -/
  openEnd : Nat
  /-- The start of the closing brace. -/
  closeStart : Nat
  slots : List Slot

namespace Layout

/-- The layout of a literal in a text, from its children in order. -/
def ofItems (text : List Char) (span : Span) (items : List Item) : Layout :=
  let openEnd := (items.head?.map (·.span.stop)).getD (span.start + 1)
  let closeStart := (items.getLast?.map (·.span.start)).getD (span.stop - 1)
  let inner := items.filter fun item => openEnd ≤ item.span.start && item.span.stop ≤ closeStart
  { span, openEnd, closeStart, slots := slotsOf text none (groupItems inner).2 }

/-- What stands between the opening brace and the first entry. -/
def before (layout : Layout) (text : List Char) : List Char :=
  Text.slice text layout.openEnd ((layout.slots.head?.map (·.span.start)).getD layout.closeStart)

/-- What stands between the last entry's tail and the closing brace. -/
def after (layout : Layout) (text : List Char) : List Char :=
  Text.slice text ((layout.slots.getLast?.map (·.tailEnd)).getD layout.openEnd) layout.closeStart

/-- What stands between the entry at a position and the one before it, apart from what goes with either. -/
def gapBefore (layout : Layout) (text : List Char) (position : Nat) : List Char :=
  match layout.slots[position - 1]?, layout.slots[position]? with
  | some previous, some slot => Text.slice text previous.tailEnd (slot.lead.getD slot.span.start)
  | _, _ => []

end Layout

namespace Document

/-- The children that a node was parsed with, as far as they have a place in a text. -/
def parsedItems (doc : Document) (id : NodeId) : List Item :=
  (doc.node id).firstChildren.filterMap fun c =>
    (doc.node c).span?.map fun span => { id := c, kind := (doc.node c).kind, span }

/-- The layout of an object literal in its text. -/
def layout (doc : Document) (id : NodeId) (text : List Char) (span : Span) : Layout :=
  Layout.ofItems text span (doc.parsedItems id)

/-- The position among some slots that an entry has, or that the nodes had whose place it took. -/
def slotPosition? (doc : Document) (slots : List Slot) : Nat → NodeId → Option Nat
  | 0, _ => none
  | fuel + 1, id =>
    match slots.findIdx? (·.id == id) with
    | some position => some position
    | none => (doc.node id).replaces.bind (doc.slotPosition? slots fuel)

/-- The walk from an entry to the node of a slot: back to the node whose place it took, and to the one whose place that one
    took. Where it ends within so many steps, the position of the slot, if it comes to one. -/
def slotWalk (doc : Document) (slots : List Slot) : Nat → NodeId → Option (Option Nat)
  | 0, _ => none
  | steps + 1, id =>
    match slots.findIdx? (·.id == id) with
    | some position => some (some position)
    | none =>
      match (doc.node id).replaces with
      | none => some none
      | some old => doc.slotWalk slots steps old

/-- Follows the places taken for as long as there are any. No position comes of it. -/
def walkOn (doc : Document) : NodeId → { position : Option Nat // position = none } :=
  have : Nonempty { position : Option Nat // position = none } := ⟨none, rfl⟩
  WellFounded.extrinsicFix (fun old id => (doc.node id).replaces = some old) fun id next =>
    match took : (doc.node id).replaces with
    | some old => next old took
    | none => ⟨none, rfl⟩

/-- The position of the slot that the walk from an entry leads to. A walk that is not over after as many steps as there are
    nodes has no end: it goes round where nodes without a slot took the places of each other. -/
def slotOf (doc : Document) (slots : List Slot) (entry : NodeId) : Option Nat :=
  match doc.slotWalk slots (doc.nodes.size + 1) entry with
  | some position => position
  | none => doc.walkOn entry

end Document

end StoreModels
