import StoreModels.Proofs.Checked.Layout

/-!
The printer, where every node, every text and every part of a text that it asks for may be missing. It is the library's
printer step by step; in a document without a hole it finds all it asks for, whatever the children of a node print as.
-/
namespace StoreModels.Checked
open Syntax (Span Role Outline)
open Text (Ordered trim trimEnd trimStart)
open Document (Setting)

/-- How a child is printed. -/
abbrev Printer := NodeId → List Char → BufferId → Option (List Char)

variable {doc : Document} {print : Printer} {total : ChildPrinter} {id c : NodeId} {ids : List NodeId}
  {text : List Char} {buffer context : BufferId} {span : Span} {start stop : Nat} {slot : Option Slot} {layout : Layout}

/-- A printer prints some nodes of a document, as a printer that cannot fail does. -/
def Serves (doc : Document) (print : Printer) (total : ChildPrinter) (ids : List NodeId) : Prop :=
  ∀ c ∈ ids, c < doc.nodes.size ∧ ∀ base context, print c base context = some (total c base context)

theorem Serves.mono {some : List NodeId} (serves : Serves doc print total ids) (sub : some ⊆ ids) :
    Serves doc print total some :=
  fun c member => serves c (sub member)

/-! ## Children -/

/-- A child on the indentation `base`. -/
def printChild (doc : Document) (print : Printer) (child : NodeId) (base : List Char) (context : BufferId) :
    Option (List Char) := do
  match (← node doc child).buffer? with
  | some buffer =>
    if buffer = context then print child base context
    else return Text.reindent (← print child [] buffer) base doc.newline.text
  | none => print child base context

theorem printChild_some (serves : Serves doc print total ids) (member : c ∈ ids) (base : List Char)
    (context : BufferId) : printChild doc print c base context = some (doc.printChild total c base context) := by
  obtain ⟨lt, prints⟩ := serves c member
  simp only [printChild, Document.printChild, node_some lt, Option.bind_eq_bind, Option.bind_some, prints]
  cases (doc.node c).buffer? with
  | none => rfl
  | some buffer => exact ite_some id _ _

/-- Children one after the other. -/
def printAll (doc : Document) (print : Printer) (ids : List NodeId) (base : List Char) (context : BufferId) :
    Option (List (List Char)) :=
  ids.mapM fun c => printChild doc print c base context

theorem printAll_some (serves : Serves doc print total ids) (base : List Char) (context : BufferId) :
    printAll doc print ids base context = some (ids.map fun c => doc.printChild total c base context) :=
  mapM_some fun _ member => printChild_some serves member base context

/-- Entries on lines of their own. -/
def printLines (doc : Document) (print : Printer) (entries : List NodeId) (indent : List Char) (context : BufferId) :
    Option (List Char) := do
  let line := doc.newline.text ++ indent
  return line ++ joinWith (',' :: line) (← printAll doc print entries indent context)

theorem printLines_some (serves : Serves doc print total ids) (indent : List Char) (context : BufferId) :
    printLines doc print ids indent context = some (doc.printLines total ids indent context) := by
  rw [printLines, printAll_some serves]
  rfl

/-- A node made by an edit. -/
def printWritten (doc : Document) (print : Printer) (node : Node) (base : List Char) (context : BufferId) :
    Option (List Char) :=
  match node.role with
  | .object =>
    if node.children.isEmpty then some ['{', '}']
    else do
      let lines ← printLines doc print node.children (base ++ doc.indentUnit) context
      return '{' :: lines ++ doc.newline.text ++ base ++ ['}']
  | .pair => do return joinWith [':', ' '] (← printAll doc print node.children base context)
  | _ => do return (← printAll doc print node.children base context).flatten

theorem printWritten_some {node : Node} (serves : Serves doc print total node.children) (base : List Char)
    (context : BufferId) :
    printWritten doc print node base context = some (doc.printWritten total node base context) := by
  have all := printAll_some serves base context
  have lines := printLines_some serves (base ++ doc.indentUnit) context
  simp only [printWritten, Document.printWritten, all, lines, Option.bind_eq_bind, Option.bind_some,
    List.flatMap_def]
  cases node.role <;> first | rfl | exact ite_some (fun text => text) _ _

/-! ## Children in their places -/

/-- Children in the places of the ones they were parsed with. -/
def printPlaces (doc : Document) (print : Printer) (text : List Char) (buffer : BufferId) (stop : Nat) :
    Nat → List (NodeId × NodeId) → Option (List Char)
  | cursor, [] => slice text cursor stop
  | cursor, (first, child) :: rest => do
    match (← node doc first).span? with
    | none => printPlaces doc print text buffer stop cursor rest
    | some span =>
      let before ← slice text cursor span.start
      let part ← printChild doc print child (← lineIndent text span.start) buffer
      return before ++ part ++ (← printPlaces doc print text buffer stop span.stop rest)

theorem printPlaces_some {places : List (NodeId × NodeId)} {outline : Outline}
    (firsts : List.Forall₂ (doc.IsAt buffer) (places.map Prod.fst) outline)
    (firstLt : ∀ f ∈ places.map Prod.fst, f < doc.nodes.size)
    (serves : Serves doc print total (places.map Prod.snd)) (ordered : Ordered start stop (outline.map Prod.snd))
    (inside : stop ≤ (doc.buffer buffer).length) :
    printPlaces doc print (doc.buffer buffer) buffer stop start places =
      some (doc.printPlaces total buffer stop start places) := by
  induction places generalizing outline start with
  | nil =>
    cases firsts
    exact slice_some ordered inside
  | cons place rest ih =>
    obtain ⟨first, child⟩ := place
    cases firsts with
    | cons here later =>
      rename_i part outline
      obtain ⟨before, wide, behind⟩ := ordered
      have reach : part.2.stop ≤ stop := behind.le
      obtain ⟨lt, firstLt⟩ := List.forall_mem_cons.mp firstLt
      have is : (doc.node first).span? = some part.2 := by rw [Node.span?, here.2]
      have head := @slice_some (doc.buffer buffer) _ _ before (by omega)
      have tail := ih later firstLt (serves.mono (List.subset_cons_self _ _)) behind
      have child' := printChild_some (c := child) serves (by simp)
        (Text.lineIndent (doc.buffer buffer) part.2.start) buffer
      simp only [printPlaces, Document.printPlaces, node_some lt, is, head, lineIndent_some, child', tail,
        Option.bind_eq_bind, Option.bind_some]
      rfl

/-- A changed node other than an object literal. -/
def printParts (doc : Document) (print : Printer) (node : Node) (buffer : BufferId) (span : Span) :
    Option (List Char) := do
  let text ← Checked.buffer doc buffer
  if node.children.length = node.firstChildren.length then
    printPlaces doc print text buffer span.stop span.start (node.firstChildren.zip node.children)
  else return (← printAll doc print node.children (← lineIndent text span.start) buffer).flatten

theorem printParts_some (intact : Intact doc) (parsed : (doc.node id).origin = .parsed buffer span)
    (serves : Serves doc print total (doc.children id)) :
    printParts doc print (doc.node id) buffer span = some (doc.printParts total (doc.node id) buffer span) := by
  obtain ⟨outline, places, inside, ordered, _⟩ := intact.laid id buffer span parsed
  rw [printParts, buffer_some (intact.sound.bufferLt parsed), Document.printParts]
  simp only [Option.bind_eq_bind, Option.bind_some]
  split
  next count =>
    have firsts : ((doc.node id).firstChildren.zip (doc.node id).children).map Prod.fst = (doc.node id).firstChildren :=
      List.map_fst_zip (Nat.le_of_eq count.symm)
    have nows : ((doc.node id).firstChildren.zip (doc.node id).children).map Prod.snd = (doc.node id).children :=
      List.map_snd_zip (Nat.le_of_eq count)
    refine printPlaces_some (by rwa [firsts]) (fun f member => ?_) (by rwa [nows]) ordered inside
    rw [firsts] at member
    exact intact.sound.firstLt member
  next =>
    have all := printAll_some serves (Text.lineIndent (doc.buffer buffer) span.start) buffer
    rw [lineIndent_some, Option.bind_some, show (doc.node id).children = doc.children id from rfl, all,
      List.flatMap_def]
    rfl

/-! ## Object literals -/

/-- An object literal that had no entries. -/
def printExpanded (doc : Document) (print : Printer) (entries : List NodeId) (inner base : List Char)
    (buffer : BufferId) : Option (List Char) := do
  let comments := trimEnd inner
  let bare := (trim comments).isEmpty
  let indent ← if comments.contains '\n' && !bare then lastIndent comments else some (base ++ doc.indentUnit)
  let lines ← printLines doc print entries indent buffer
  return '{' :: (if bare then [] else comments) ++ lines ++ doc.newline.text ++ base ++ ['}']

theorem printExpanded_some (serves : Serves doc print total ids) (inner base : List Char) (buffer : BufferId) :
    printExpanded doc print ids inner base buffer = some (doc.printExpanded total ids inner base buffer) := by
  simp only [printExpanded, Document.printExpanded, lastIndent_some, Option.bind_eq_bind]
  split <;> (rw [Option.bind_some, printLines_some serves]; rfl)

/-- What stands behind an entry. -/
def printTail (text : List Char) (slot : Option Slot) (wantsComma : Bool) : Option (List Char) :=
  match slot with
  | none => some (if wantsComma then [','] else [])
  | some slot =>
    match slot.comma, wantsComma with
    | some comma, false => do
      return (← slice text slot.span.stop comma.start) ++ (← slice text comma.stop slot.tailEnd)
    | none, true => do return ',' :: (← slice text slot.span.stop slot.tailEnd)
    | _, _ => slice text slot.span.stop slot.tailEnd

theorem printTail_some (lies : ∀ s ∈ slot, s.Lies stop) (inside : stop ≤ text.length) (wantsComma : Bool) :
    printTail text slot wantsComma = some (Document.printTail text slot wantsComma) := by
  cases slot with
  | none => rfl
  | some slot =>
    have lies := lies slot rfl
    have reach : slot.tailEnd ≤ text.length := Nat.le_trans lies.stops inside
    have whole := slice_some lies.tail reach
    simp only [printTail, Document.printTail]
    cases given : slot.comma with
    | none => cases wantsComma <;> simp [whole]
    | some comma =>
      obtain ⟨first, wide, last⟩ := lies.comma comma given
      have front := @slice_some text _ _ first (by omega)
      have back := slice_some last reach
      cases wantsComma <;> simp [whole, front, back]

/-- What separates two entries. -/
def gap (setting : Setting) (previous position : Option Nat) : Option (List Char) :=
  let fallback := if setting.multiline then setting.lineBreak else [' ']
  let behind := match previous with
    | some p =>
      if p + 1 < setting.layout.slots.length then gapBefore setting.layout setting.text (p + 1) else some fallback
    | none => some fallback
  match position with
  | some q => if 0 < q then gapBefore setting.layout setting.text q else behind
  | none => behind

/-- The comments above an entry. -/
def lead (setting : Setting) (slot : Option Slot) : Option (List Char) :=
  match slot with
  | some { lead := some start, span, .. } => slice setting.text start span.start
  | _ => some []

/-- The slot at a position. -/
def slotAt (layout : Layout) : Option Nat → Option (Option Slot)
  | some q => (layout.slots[q]?).map some
  | none => some none

/-- What is printed before an entry. -/
def separation (setting : Setting) (isFirst : Bool) (previous : Option Nat) (lineComment : Bool)
    (position : Option Nat) : Option (List Char) :=
  if isFirst then some []
  else (gap setting previous position).map fun gap =>
    if lineComment && !gap.contains '\n' then setting.lineBreak else gap

/-- Entries after one at position `previous`. -/
def printEntries (doc : Document) (print : Printer) (setting : Setting) :
    Bool → Option Nat → Bool → List (NodeId × Option Nat) → Option (List Char × Bool)
  | _, _, lineComment, [] => some ([], lineComment)
  | isFirst, previous, lineComment, (entry, position) :: rest => do
    let gap ← separation setting isFirst previous lineComment position
    let slot ← slotAt setting.layout position
    let trailing := (setting.layout.slots.getLast?.bind (·.comma)).isSome
    let lead ← lead setting slot
    let part ← printChild doc print entry setting.indent setting.buffer
    let tail ← printTail setting.text slot (!rest.isEmpty || trailing)
    let (more, ending) ← printEntries doc print setting false position ((slot.map (·.lineComment)).getD false) rest
    return (gap ++ lead ++ part ++ tail ++ more, ending)

section Entries
variable {setting : Setting} (divides : Divides setting.layout)
  (inside : setting.layout.span.stop ≤ setting.text.length)
include divides inside

theorem gap_some {previous position : Option Nat} (known : ∀ q ∈ position, q < setting.layout.slots.length) :
    gap setting previous position = some (setting.gap previous position) := by
  have behind : ∀ fallback : List Char, (match previous with
      | some p =>
        if p + 1 < setting.layout.slots.length then gapBefore setting.layout setting.text (p + 1) else some fallback
      | none => some fallback) = some (match previous with
        | some p =>
          if p + 1 < setting.layout.slots.length then setting.layout.gapBefore setting.text (p + 1) else fallback
        | none => fallback) := by
    intro fallback
    cases previous with
    | none => rfl
    | some p =>
      by_cases more : p + 1 < setting.layout.slots.length
      · simp only [if_pos more, gapBefore_some divides inside (Nat.succ_pos p) more]
      · simp only [if_neg more]
  simp only [gap, Setting.gap]
  cases position with
  | none => exact behind _
  | some q =>
    by_cases positive : 0 < q
    · simp only [if_pos positive, gapBefore_some divides inside positive (known q rfl)]
    · simp only [if_neg positive]
      exact behind _

theorem lead_some (known : ∀ s ∈ slot, s.Lies setting.layout.closeStart) :
    lead setting slot = some (setting.lead slot) := by
  have reach := closeStart_le divides inside
  rcases slot with _ | ⟨id, span, led, comma, tailEnd, lineComment⟩
  · rfl
  · cases led with
    | none => rfl
    | some start =>
      have lies := known _ rfl
      have := lies.inside
      have := lies.tail
      have := lies.stops
      exact slice_some lies.begins (by simp only at *; omega)

theorem printEntries_some {entries : List (NodeId × Option Nat)} {isFirst lineComment : Bool} {previous : Option Nat}
    (serves : Serves doc print total (entries.map Prod.fst))
    (known : ∀ entry ∈ entries, ∀ q ∈ entry.2, q < setting.layout.slots.length) :
    printEntries doc print setting isFirst previous lineComment entries =
      some (doc.printEntries total setting isFirst previous lineComment entries) := by
  induction entries generalizing isFirst previous lineComment with
  | nil => rfl
  | cons entry rest ih =>
    obtain ⟨entry, position⟩ := entry
    obtain ⟨here, later⟩ := List.forall_mem_cons.mp known
    have slotIs : slotAt setting.layout position = some (position.bind fun q => setting.layout.slots[q]?) := by
      cases position with
      | none => rfl
      | some q => simp [slotAt, List.getElem?_eq_getElem (here q rfl)]
    have separated : separation setting isFirst previous lineComment position = some (if isFirst then [] else
        if lineComment && !(setting.gap previous position).contains '\n' then setting.lineBreak
        else setting.gap previous position) := by
      rw [separation, gap_some divides inside here]
      cases isFirst <;> rfl
    have lies : ∀ s ∈ position.bind fun q => setting.layout.slots[q]?, s.Lies setting.layout.closeStart := by
      intro s member
      obtain ⟨q, _, found⟩ := Option.bind_eq_some_iff.mp member
      exact lies_le divides.chained found
    have part := printChild_some (c := entry) serves (by simp) setting.indent setting.buffer
    have more : ∀ {isFirst previous lineComment}, printEntries doc print setting isFirst previous lineComment rest =
        some (doc.printEntries total setting isFirst previous lineComment rest) :=
      ih (serves.mono (by simp)) later
    simp only [printEntries, Document.printEntries, separated, slotIs, lead_some divides inside lies, part,
      printTail_some lies (closeStart_le divides inside), more, Option.bind_eq_bind, Option.bind_some]
    rfl

end Entries

/-- The indentation of the entries of a literal, given what stands before the first one. -/
def entryIndent (before base : List Char) : Option (List Char) :=
  if before.contains '\n' then lastIndent before else some base

theorem entryIndent_some (before base : List Char) : entryIndent before base =
    some (if before.contains '\n' then StoreModels.lastIndent before else base) := by
  rw [entryIndent, lastIndent_some]
  exact ite_some id _ _

/-- A changed object literal that had entries and has some. -/
def printObjectEntries (doc : Document) (print : Printer) (text : List Char) (buffer : BufferId) (layout : Layout)
    (base : List Char) (entries : List NodeId) : Option (List Char) := do
  let before ← before layout text
  let after ← after layout text
  let indent ← entryIndent before base
  let setting : Setting :=
    { text, buffer, layout, indent, multiline := before.contains '\n', lineBreak := doc.newline.text ++ indent }
  let positions ← entries.mapM fun entry =>
    (slotPosition doc layout.slots (doc.nodes.size + 1) entry).map fun position => (entry, position)
  let (body, lineComment) ← printEntries doc print setting true none false positions
  let opening ← slice text layout.span.start layout.openEnd
  let closing ← slice text layout.closeStart layout.span.stop
  return opening ++ before ++ body ++
    (if lineComment && !after.contains '\n' then doc.newline.text ++ base ++ trimStart after else after) ++ closing

theorem printObjectEntries_some (sound : doc.Sound) (divides : Divides layout)
    (inside : layout.span.stop ≤ text.length) (serves : Serves doc print total ids) (base : List Char) :
    printObjectEntries doc print text buffer layout base ids =
      some (doc.printObjectEntries total text buffer layout base ids) := by
  have positions : ids.mapM (fun entry =>
      (slotPosition doc layout.slots (doc.nodes.size + 1) entry).map fun position => (entry, position)) =
      some (ids.map fun entry => (entry, doc.slotPosition? layout.slots (doc.nodes.size + 1) entry)) := by
    refine mapM_some fun c member => ?_
    rw [slotPosition_some sound layout.slots (serves c member).1]
    rfl
  have closes := closeStart_le divides inside
  have bounds : layout.openEnd ≤ text.length :=
    Nat.le_trans divides.starts (Nat.le_trans (beginsAt_le divides.chained) closes)
  have opening := slice_some divides.opens bounds
  have closing := slice_some divides.closes inside
  have entries : ∀ setting : Setting, setting.layout = layout → setting.text = text →
      printEntries doc print setting true none false
        (ids.map fun entry => (entry, doc.slotPosition? layout.slots (doc.nodes.size + 1) entry)) =
      some (doc.printEntries total setting true none false
        (ids.map fun entry => (entry, doc.slotPosition? layout.slots (doc.nodes.size + 1) entry))) := by
    rintro setting rfl rfl
    refine printEntries_some divides inside (serves.mono (by simp [Function.comp_def])) fun entry member q found => ?_
    obtain ⟨c, _, rfl⟩ := List.mem_map.mp member
    exact slotPosition_lt found
  simp only [printObjectEntries, Document.printObjectEntries, Document.slotOf_eq, before_some divides inside, after_some divides inside,
    entryIndent_some, positions, Option.bind_eq_bind, Option.bind_some]
  rw [entries _ rfl rfl, Option.bind_some, opening, closing]
  rfl

/-- A changed object literal. -/
def printObject (doc : Document) (print : Printer) (id : NodeId) (buffer : BufferId) (span : Span) :
    Option (List Char) := do
  let text ← Checked.buffer doc buffer
  let base ← lineIndent text span.start
  let layout ← layoutOf doc id text span
  let entries ← entries doc id
  if layout.slots.isEmpty then
    if entries.isEmpty then slice text span.start span.stop
    else printExpanded doc print entries (← slice text layout.openEnd layout.closeStart) base buffer
  else if entries.isEmpty then
    return doc.printEmptied (← slice text span.start layout.openEnd) (← before layout text) (← after layout text) base
      (← slice text layout.closeStart span.stop)
  else printObjectEntries doc print text buffer layout base entries

theorem printObject_some (intact : Intact doc) (lt : id < doc.nodes.size)
    (parsed : (doc.node id).origin = .parsed buffer span) (object : doc.role id = .object)
    (serves : Serves doc print total (doc.children id)) :
    printObject doc print id buffer span = some (doc.printObject total id buffer span) := by
  obtain ⟨divides, found⟩ := layoutOf_some intact lt parsed object
  obtain ⟨_, _, inside, ordered, _⟩ := intact.laid id buffer span parsed
  have serves : Serves doc print total (doc.entries id) := serves.mono List.filter_sublist.subset
  have whole := slice_some ordered.le inside
  have closes := closeStart_le divides inside
  have bounds : (doc.layout id (doc.buffer buffer) span).openEnd ≤ (doc.layout id (doc.buffer buffer) span).closeStart :=
    Nat.le_trans divides.starts (beginsAt_le divides.chained)
  have inner := slice_some bounds closes
  have opening := slice_some divides.opens (Nat.le_trans bounds closes)
  have closing := slice_some divides.closes inside
  simp only [printObject, Document.printObject, buffer_some (intact.sound.bufferLt parsed), lineIndent_some, found,
    entries_some intact.sound.forest lt, Option.bind_eq_bind, Option.bind_some]
  rw [show ((doc.children id).filter fun c => (doc.role c).isEntry) = doc.entries id from rfl]
  split
  · split
    · exact whole
    · rw [inner, Option.bind_some]
      exact printExpanded_some serves _ _ buffer
  · split
    · rw [show span.start = (doc.layout id (doc.buffer buffer) span).span.start from rfl, opening, Option.bind_some,
        before_some divides inside, Option.bind_some, after_some divides inside, Option.bind_some]
      rw [show span.stop = (doc.layout id (doc.buffer buffer) span).span.stop from rfl, closing]
      rfl
    · exact printObjectEntries_some intact.sound divides inside serves _

/-! ## Nodes -/

/-- A node by means of its children's printer. -/
def printWith (doc : Document) (print : Printer) (id : NodeId) (base : List Char) (context : BufferId) :
    Option (List Char) := do
  let node ← node doc id
  match node.origin with
  | .written (some text) => if node.children.isEmpty then some text else printWritten doc print node base context
  | .written none => printWritten doc print node base context
  | .parsed buffer span =>
    if !node.dirty then slice (← Checked.buffer doc buffer) span.start span.stop
    else if node.role = .object then printObject doc print id buffer span
    else printParts doc print node buffer span

theorem printWith_some (intact : Intact doc) (lt : id < doc.nodes.size)
    (serves : Serves doc print total (doc.children id)) (base : List Char) (context : BufferId) :
    printWith doc print id base context = some (doc.printWith total id base context) := by
  simp only [printWith, Document.printWith, node_some lt, Option.bind_eq_bind, Option.bind_some]
  cases origin : (doc.node id).origin with
  | written text =>
    have made := @printWritten_some doc print total (doc.node id) serves base context
    cases text with
    | none => exact made
    | some text =>
      simp only [made]
      exact ite_some (fun text => text) _ _
  | parsed buffer span =>
    obtain ⟨_, _, inside, ordered, _⟩ := intact.laid id buffer span origin
    simp only [buffer_some (intact.sound.bufferLt origin), Option.bind_some]
    split
    · exact slice_some ordered.le inside
    · split
      next object => exact printObject_some intact lt origin object serves
      next => exact printParts_some intact origin serves

/-- A node down to a depth. -/
def printDown (doc : Document) : Nat → Printer
  | 0, _, _, _ => none
  | depth + 1, id, base, context => printWith doc (printDown doc depth) id base context

theorem printDown_some (intact : Intact doc) (lt : id < doc.nodes.size) (base : List Char) (context : BufferId) :
    printDown doc doc.depth id base context = some (doc.printDown doc.depth id base context) := by
  have down : ∀ (depth : Nat) (id : NodeId), id < doc.nodes.size → doc.Fits depth id → ∀ base context,
      printDown doc depth id base context = some (doc.printDown depth id base context) := by
    intro depth
    induction depth with
    | zero => exact fun _ _ fits => fits.elim
    | succ depth ih =>
      intro id lt fits base context
      refine printWith_some intact lt (fun c member => ?_) base context
      have present := intact.sound.forest.childLt member
      exact ⟨present, ih c present (fits c member)⟩
  exact down _ id lt (Document.Within.mono (Nat.le_succ _) (intact.sound.forest.fits lt)) base context

/-- The text of a node now. -/
def printNode (doc : Document) (id : NodeId) : Option (List Char) := do
  printDown doc doc.depth id [] ((← node doc id).buffer?.getD 0)

theorem printNode_some (intact : Intact doc) (lt : id < doc.nodes.size) :
    printNode doc id = some (doc.printNode id) := by
  rw [printNode, node_some lt]
  exact printDown_some intact lt _ _

/-- The whole file now. -/
def printFile (doc : Document) : Option (List Char) := do
  match (← node doc doc.root).span? with
  | none => printNode doc doc.root
  | some span =>
    let source ← Checked.buffer doc 0
    let before ← slice source 0 span.start
    let body ← printDown doc doc.depth doc.root [] 0
    return before ++ body ++ (← slice source span.stop source.length)

theorem printFile_some (intact : Intact doc) : printFile doc = some doc.print := by
  rw [printFile, node_some intact.root, Option.bind_eq_bind, Option.bind_some, Document.print]
  cases place : (doc.node doc.root).span? with
  | none => exact printNode_some intact intact.root
  | some span =>
    have origin : (doc.node doc.root).origin = .parsed 0 span := by
      have home := intact.home
      cases origin : (doc.node doc.root).origin with
      | written text => simp [Node.span?, origin] at place
      | parsed buffer whole =>
        simp only [Node.span?, Node.buffer?, origin, Option.some.injEq] at place home
        rw [place, home]
    obtain ⟨_, _, inside, ordered, _⟩ := intact.laid doc.root 0 span origin
    change span.stop ≤ doc.source.length at inside
    have before := @slice_some doc.source _ _ (Nat.zero_le span.start) (Nat.le_trans ordered.le inside)
    have after := @slice_some doc.source _ _ inside (Nat.le_refl _)
    rw [Text.slice_zero] at before
    rw [Text.slice_end] at after
    have source : Checked.buffer doc 0 = some doc.source := buffer_some (intact.sound.bufferLt origin)
    simp only [source, before, printDown_some intact intact.root, after, Option.bind_eq_bind, Option.bind_some]
    rfl

end StoreModels.Checked
