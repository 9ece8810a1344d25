import StoreModels.Proofs.Document.Parted
import StoreModels.Proofs.Document.Render

/-!
Counterparts in two documents. The numbers of nodes and of texts mean nothing to the printer: where the nodes of two
documents are related one to one, each to one of the same kind, from the same place of the same text and with related
parts, they print the same.
-/
namespace StoreModels
open Syntax (Span Role)
open Text (slice)
open List (Forall₂)

/-! ## Layouts without numbers -/

/-- An item without its number. -/
def Item.blank (item : Item) : Item := { item with id := 0 }

/-- A slot without its number. -/
def Slot.blank (slot : Slot) : Slot := { slot with id := 0 }

/-- A group of an entry and the items behind it without their numbers. -/
def blankGroup (group : Item × List Item) : Item × List Item := (group.1.blank, group.2.map Item.blank)

@[simp] theorem Item.isEntry_blank (item : Item) : item.blank.isEntry = item.isEntry := rfl

@[simp] theorem Item.isComma_blank (item : Item) : item.blank.isComma = item.isComma := rfl

@[simp] theorem Item.isComment_blank (item : Item) : item.blank.isComment = item.isComment := rfl

@[simp] theorem Item.span_blank (item : Item) : item.blank.span = item.span := rfl

theorem groupItems_blank (items : List Item) :
    groupItems (items.map Item.blank) = ((groupItems items).1.map Item.blank, (groupItems items).2.map blankGroup) := by
  induction items with
  | nil => rfl
  | cons item rest ih =>
    simp only [List.map_cons, groupItems, ih, Item.isEntry_blank]
    split <;> rfl

theorem closeGap_blank (text : List Char) (entry : Span) (next : Option Nat) (passed : Bool) (closing : Closing)
    (items : List Item) :
    closeGap text entry next passed closing (items.map Item.blank) = closeGap text entry next passed closing items := by
  induction items generalizing passed closing with
  | nil => rfl
  | cons item rest ih =>
    have commas : (rest.map Item.blank).any Item.isComma = rest.any Item.isComma := by
      rw [List.any_map]
      rfl
    simp only [List.map_cons, closeGap, Item.isComma_blank, Item.isComment_blank, Item.span_blank, commas, ih]

theorem slotsOf_blank (text : List Char) (lead : Option Nat) (groups : List (Item × List Item)) :
    slotsOf text lead (groups.map blankGroup) = (slotsOf text lead groups).map Slot.blank := by
  induction groups generalizing lead with
  | nil => rfl
  | cons group rest ih =>
    obtain ⟨entry, gap⟩ := group
    have next : (rest.map blankGroup).head?.map (·.1.span.start) = rest.head?.map (·.1.span.start) := by
      rw [List.head?_map, Option.map_map]
      rfl
    rw [List.map_cons, blankGroup, slotsOf, next, closeGap_blank, ih]
    rfl

namespace Layout

/-- A layout without the numbers of its entries. -/
def blank (layout : Layout) : Layout := { layout with slots := layout.slots.map Slot.blank }

theorem ofItems_blank (text : List Char) (span : Span) (items : List Item) :
    ofItems text span (items.map Item.blank) = (ofItems text span items).blank := by
  have opens : (items.map Item.blank).head?.map (·.span.stop) = items.head?.map (·.span.stop) := by
    rw [List.head?_map, Option.map_map]
    rfl
  have closes : (items.map Item.blank).getLast?.map (·.span.start) = items.getLast?.map (·.span.start) := by
    rw [List.getLast?_map, Option.map_map]
    rfl
  simp only [ofItems, opens, closes, blank, List.filter_map]
  rw [groupItems_blank, slotsOf_blank]
  rfl

variable (layout : Layout) (text : List Char)

@[simp] theorem slots_blank : layout.blank.slots = layout.slots.map Slot.blank := rfl

theorem before_blank : layout.blank.before text = layout.before text := by
  simp only [before, slots_blank, List.head?_map, Option.map_map]
  rfl

theorem after_blank : layout.blank.after text = layout.after text := by
  simp only [after, slots_blank, List.getLast?_map, Option.map_map]
  rfl

theorem gapBefore_blank (position : Nat) : layout.blank.gapBefore text position = layout.gapBefore text position := by
  simp only [gapBefore, slots_blank, List.getElem?_map]
  cases layout.slots[position - 1]? <;> cases layout.slots[position]? <;> rfl

end Layout

namespace Document

theorem printTail_blank (text : List Char) (slot : Option Slot) (wantsComma : Bool) :
    printTail text (slot.map Slot.blank) wantsComma = printTail text slot wantsComma := by
  cases slot <;> rfl

/-- A setting without the numbers of entries and texts. -/
def Setting.blank (setting : Setting) : Setting := { setting with layout := setting.layout.blank, buffer := 0 }

theorem Setting.gap_blank (setting : Setting) (previous position : Option Nat) :
    setting.blank.gap previous position = setting.gap previous position := by
  have same := setting.layout.gapBefore_blank setting.text
  have count : setting.layout.blank.slots.length = setting.layout.slots.length := List.length_map _
  cases previous <;> cases position <;> simp only [Setting.gap, Setting.blank, count, same] <;> rfl

theorem Setting.lead_blank (setting : Setting) (slot : Option Slot) :
    setting.blank.lead (slot.map Slot.blank) = setting.lead slot := by
  cases slot with
  | none => rfl
  | some slot =>
    obtain ⟨_, _, lead, _⟩ := slot
    cases lead <;> rfl

/-! ## Counterparts -/

/-- Two origins are the same part of texts that are related, or the same text of a written node. -/
inductive Meets (B : BufferId → BufferId → Prop) : Origin → Origin → Prop
  | parsed {b b' : BufferId} {span : Span} (texts : B b b') : Meets B (.parsed b span) (.parsed b' span)
  | written (text : Option (List Char)) : Meets B (.written text) (.written text)

/-- The nodes of two documents that a relation relates one to one are of the same kinds, come from the same parts of
    related texts, and were parsed with related children. -/
structure Counterparts (doc doc' : Document) (B : BufferId → BufferId → Prop) (R : NodeId → NodeId → Prop) : Prop where
  newline : doc'.newline = doc.newline
  indentUnit : doc'.indentUnit = doc.indentUnit
  textsOne : Relator.BiUnique B
  texts : ∀ {b b'}, B b b' → b < doc.buffers.length ∧ b' < doc'.buffers.length ∧ doc'.buffer b' = doc.buffer b
  nodesOne : Relator.BiUnique R
  present : ∀ {x y}, R x y → x < doc.nodes.size ∧ y < doc'.nodes.size
  kind : ∀ {x y}, R x y → (doc'.node y).kind = (doc.node x).kind
  origin : ∀ {x y}, R x y → Meets B (doc.node x).origin (doc'.node y).origin
  firsts : ∀ {x y}, R x y → Forall₂ R (doc.node x).firstChildren (doc'.node y).firstChildren

/-- Two documents are of one style, and their related texts are the same. -/
structure SameStyle (doc doc' : Document) (B : BufferId → BufferId → Prop) : Prop where
  newline : doc'.newline = doc.newline
  indentUnit : doc'.indentUnit = doc.indentUnit
  textsOne : Relator.BiUnique B
  text : ∀ {b b'}, B b b' → doc'.buffer b' = doc.buffer b

/-- Two nodes are of one kind and come from the same part of related texts. -/
structure Resembles (B : BufferId → BufferId → Prop) (node node' : Node) : Prop where
  kind : node'.kind = node.kind
  origin : Meets B node.origin node'.origin

/-- Two nodes resemble each other, and so do the related children that they were parsed with. -/
structure Parallel (doc doc' : Document) (B : BufferId → BufferId → Prop) (F : NodeId → NodeId → Prop) (x y : NodeId) :
    Prop where
  here : Resembles B (doc.node x) (doc'.node y)
  firsts : Forall₂ (fun f f' => F f f' ∧ Resembles B (doc.node f) (doc'.node f')) (doc.node x).firstChildren
    (doc'.node y).firstChildren

variable {doc doc' : Document} {print print' : ChildPrinter} {B : BufferId → BufferId → Prop}
  {R S F : NodeId → NodeId → Prop} {x y c d : NodeId} {b b' : BufferId}

theorem Meets.span? {n n' : Node} (meets : Meets B n.origin n'.origin) : n'.span? = n.span? := by
  unfold Node.span?
  generalize n.origin = from_text at meets ⊢
  generalize n'.origin = from_text' at meets ⊢
  cases meets <;> rfl

/-- Every origin is the same part of the same text. -/
theorem Meets.refl (origin : Origin) : Meets (· = ·) origin origin := by
  cases origin with
  | parsed buffer span => exact .parsed rfl
  | written text => exact .written text

theorem Resembles.role {n n' : Node} (same : Resembles B n n') : n'.role = n.role := congrArg Role.ofKind same.kind

/-- The places that two nodes took end at related nodes. -/
def Seated (doc doc' : Document) (R : NodeId → NodeId → Prop) (c d : NodeId) : Prop :=
  ∃ e e', doc.Ends c e ∧ doc'.Ends d e' ∧ R e e'

/-- The places that two nodes took end at the same ones among related entries, if at any. -/
def Aligned (doc doc' : Document) (F : NodeId → NodeId → Prop) (c d : NodeId) : Prop :=
  ∃ e e', doc.Ends c e ∧ doc'.Ends d e' ∧ ∀ f f', F f f' → (doc.role f).isEntry = true → (f' = e' ↔ f = e)

/-- Where nodes are related one to one, places that end at related ones end at the same ones. -/
theorem Seated.aligned (seated : Seated doc doc' R c d) (one : Relator.BiUnique R) : Aligned doc doc' R c d := by
  obtain ⟨e, e', ends, ends', related⟩ := seated
  exact ⟨e, e', ends, ends', fun f f' both _ => ⟨fun is => one.1 both (is ▸ related), fun is => one.2 both (is ▸ related)⟩⟩

/-- Two nodes are of one kind and print the same as children of nodes from related texts. -/
def PrintsAs (doc doc' : Document) (print print' : ChildPrinter) (B : BufferId → BufferId → Prop) (c d : NodeId) : Prop :=
  (doc'.node d).kind = (doc.node c).kind ∧ ∀ base context context', B context context' →
    doc'.printChild print' d base context' = doc.printChild print c base context

/-- Nodes that resemble each other and print the same do so as children. -/
theorem Resembles.printsAs (same : Resembles B (doc.node c) (doc'.node d)) (style : SameStyle doc doc' B)
    (shown : ∀ base b b', B b b' → print' d base b' = print c base b) : PrintsAs doc doc' print print' B c d := by
  refine ⟨same.kind, fun base context context' texts => ?_⟩
  have meets := same.origin
  unfold printChild Node.buffer?
  generalize (doc.node c).origin = from_text at meets ⊢
  generalize (doc'.node d).origin = from_text' at meets ⊢
  cases meets with
  | written text => exact shown base context context' texts
  | @parsed b b' span known =>
    have same : b' = context' ↔ b = context :=
      ⟨fun is => style.textsOne.1 known (is ▸ texts), fun is => style.textsOne.2 known (is ▸ texts)⟩
    simp only [same, shown _ _ _ known, shown _ _ _ texts, style.newline]

namespace Counterparts
variable (parts : Counterparts doc doc' B R)
include parts

theorem role (rel : R x y) : doc'.role y = doc.role x := congrArg Role.ofKind (parts.kind rel)

theorem style : SameStyle doc doc' B := ⟨parts.newline, parts.indentUnit, parts.textsOne, fun both => (parts.texts both).2.2⟩

theorem resembles (rel : R x y) : Resembles B (doc.node x) (doc'.node y) := ⟨parts.kind rel, parts.origin rel⟩

theorem parallel (rel : R x y) : Parallel doc doc' B R x y :=
  ⟨parts.resembles rel, (parts.firsts rel).imp fun _ _ both => ⟨both, parts.resembles both⟩⟩

end Counterparts

section
variable (newline : doc'.newline = doc.newline) (indentUnit : doc'.indentUnit = doc.indentUnit) (texts : B b b')
include newline

/-- Children that print the same stand the same on lines of their own. -/
theorem printLines_congr {entries entries' : List NodeId}
    (pairs : Forall₂ (PrintsAs doc doc' print print' B) entries entries') (texts : B b b') (indent : List Char) :
    doc'.printLines print' entries' indent b' = doc.printLines print entries indent b := by
  have same := forall₂_map_eq pairs fun c d both => both.2 indent b b' texts
  simp only [printLines, newline, same]

include indentUnit in
/-- Written nodes of one kind whose children print the same do so. -/
theorem printWritten_congr {node node' : Node} (kind : node'.kind = node.kind)
    (pairs : Forall₂ (PrintsAs doc doc' print print' B) node.children node'.children) (texts : B b b')
    (base : List Char) : doc'.printWritten print' node' base b' = doc.printWritten print node base b := by
  have role : node'.role = node.role := congrArg Role.ofKind kind
  have bare := forall₂_isEmpty pairs
  have same := forall₂_map_eq pairs fun c d both => both.2 base b b' texts
  have flat : (node'.children.flatMap fun c => doc'.printChild print' c base b') =
      node.children.flatMap fun c => doc.printChild print c base b := by
    rw [List.flatMap_def, List.flatMap_def, same]
  simp only [printWritten, role, bare, printLines_congr newline pairs texts, newline, indentUnit, same, flat]

end

/-- Children that print the same, each in the place of one from the same part of a text. -/
theorem printPlaces_congr {places places' : List (NodeId × NodeId)} (text : doc'.buffer b' = doc.buffer b)
    (pairs : Forall₂ (fun p p' => (doc'.node p'.1).span? = (doc.node p.1).span? ∧
      PrintsAs doc doc' print print' B p.2 p'.2) places places') (texts : B b b') (stop cursor : Nat) :
    doc'.printPlaces print' b' stop cursor places' = doc.printPlaces print b stop cursor places := by
  induction pairs generalizing cursor with
  | nil => simp only [printPlaces, text]
  | @cons p p' _ _ here _ ih =>
    obtain ⟨first, child⟩ := p
    obtain ⟨first', child'⟩ := p'
    simp only [printPlaces, here.1, text, here.2.2 _ b b' texts, ih]

/-- Entries that print the same and have the same positions, set the same. -/
theorem printEntries_congr {setting setting' : Setting} {entries entries' : List (NodeId × Option Nat)}
    (set : setting'.blank = setting.blank) (texts : B setting.buffer setting'.buffer)
    (pairs : Forall₂ (fun e e' => e'.2 = e.2 ∧ PrintsAs doc doc' print print' B e.1 e'.1) entries entries')
    (isFirst : Bool) (previous : Option Nat) (lineComment : Bool) :
    doc'.printEntries print' setting' isFirst previous lineComment entries' =
      doc.printEntries print setting isFirst previous lineComment entries := by
  have gap : ∀ previous position, setting'.gap previous position = setting.gap previous position := fun p q => by
    rw [← setting'.gap_blank, set, setting.gap_blank]
  have slots : setting'.layout.slots.map Slot.blank = setting.layout.slots.map Slot.blank :=
    congrArg (fun s => s.layout.slots) set
  have text : setting'.text = setting.text := congrArg (·.text) set
  have indent : setting'.indent = setting.indent := congrArg (·.indent) set
  have lineBreak : setting'.lineBreak = setting.lineBreak := congrArg (·.lineBreak) set
  -- What is read of a slot does not depend on its number.
  have slot : ∀ position : Option Nat, (position.bind fun q => setting'.layout.slots[q]?).map Slot.blank =
      (position.bind fun q => setting.layout.slots[q]?).map Slot.blank := by
    rintro (_ | q)
    · rfl
    · simp only [Option.bind_some, ← List.getElem?_map, slots]
  have lead : ∀ position : Option Nat, setting'.lead (position.bind fun q => setting'.layout.slots[q]?) =
      setting.lead (position.bind fun q => setting.layout.slots[q]?) := fun position => by
    rw [← setting'.lead_blank, slot, set, setting.lead_blank]
  have tail : ∀ (position : Option Nat) wants, printTail setting'.text (position.bind fun q => setting'.layout.slots[q]?) wants =
      printTail setting.text (position.bind fun q => setting.layout.slots[q]?) wants := fun position wants => by
    rw [← printTail_blank, slot, text, printTail_blank]
  have line : ∀ position : Option Nat, ((position.bind fun q => setting'.layout.slots[q]?).map (·.lineComment)) =
      (position.bind fun q => setting.layout.slots[q]?).map (·.lineComment) := fun position => by
    have blank : ∀ s : Option Slot, s.map (·.lineComment) = (s.map Slot.blank).map (·.lineComment) := by
      rintro (_ | _) <;> rfl
    rw [blank, slot, ← blank]
  have trailing : (setting'.layout.slots.getLast?.bind (·.comma)).isSome =
      (setting.layout.slots.getLast?.bind (·.comma)).isSome := by
    have last : setting'.layout.slots.getLast?.map Slot.blank = setting.layout.slots.getLast?.map Slot.blank := by
      rw [← List.getLast?_map, slots, List.getLast?_map]
    have comma : ∀ s : Option Slot, (s.bind (·.comma)).isSome = ((s.map Slot.blank).bind (·.comma)).isSome := by
      rintro (_ | _) <;> rfl
    rw [comma, last, ← comma]
  induction pairs generalizing isFirst previous lineComment with
  | nil => rfl
  | @cons e e' rest rest' here later ih =>
    obtain ⟨entry, position⟩ := e
    obtain ⟨entry', position'⟩ := e'
    obtain ⟨same, shown⟩ := here
    obtain rfl : position' = position := same
    have bare := forall₂_isEmpty later
    simp only [printEntries, gap, lead, tail, line, ih, shown.2 _ _ _ texts, indent, lineBreak, trailing, bare]

/-! ## Nodes from texts -/

namespace Parallel
variable (parallel : Parallel doc doc' B F x y)
include parallel

theorem parsedItems : Forall₂ (fun i i' => F i.id i'.id ∧ (doc.node i.id).kind = i.kind ∧ i'.blank = i.blank)
    (doc.parsedItems x) (doc'.parsedItems y) := by
  refine List.rel_filterMap (fun f f' both => ?_) parallel.firsts
  obtain ⟨related, same⟩ := both
  rw [same.origin.span?, same.kind]
  cases (doc.node f).span? with
  | none => exact .none
  | some span => exact .some ⟨related, rfl, rfl⟩

theorem layout_blank (text : List Char) (span : Span) :
    (doc'.layout y text span).blank = (doc.layout x text span).blank := by
  have items : (doc'.parsedItems y).map Item.blank = (doc.parsedItems x).map Item.blank :=
    forall₂_map_eq parallel.parsedItems fun _ _ both => both.2.2
  rw [layout, layout, ← Layout.ofItems_blank, items, Layout.ofItems_blank]

/-- The slots of parallel object literals are those of related entries. -/
theorem layout_ids (text : List Char) (span : Span) :
    Forall₂ (fun f f' => F f f' ∧ (doc.role f).isEntry = true) ((doc.layout x text span).slots.map Slot.id)
      ((doc'.layout y text span).slots.map Slot.id) := by
  have opens : (doc'.layout y text span).openEnd = (doc.layout x text span).openEnd :=
    (congrArg Layout.openEnd (parallel.layout_blank text span) :)
  have closes : (doc'.layout y text span).closeStart = (doc.layout x text span).closeStart :=
    (congrArg Layout.closeStart (parallel.layout_blank text span) :)
  simp only [layout, Layout.ofItems, slots_ids] at opens closes ⊢
  rw [opens, closes, List.forall₂_map_left_iff, List.forall₂_map_right_iff]
  have place : ∀ i i' : Item, i'.blank = i.blank → i'.span = i.span := fun _ _ same => (congrArg Item.span same :)
  have isEntry : ∀ i i' : Item, i'.blank = i.blank → i'.isEntry = i.isEntry := fun _ _ same => (congrArg Item.isEntry same :)
  refine forall₂_imp_mem (forall₂_filter (forall₂_filter parallel.parsedItems fun i _ i' _ both => ?_)
    fun i _ i' _ both => ?_) fun i member _ _ both => ⟨both.1, ?_⟩
  · rw [place i i' both.2.2]
  · exact (isEntry i i' both.2.2).symm
  · have entry := (List.mem_filter.mp member).2
    rwa [Item.isEntry, ← both.2.1] at entry

/-- Nodes that end at the same ones have the same positions in parallel object literals. -/
theorem position (sound : doc.Sound) (sound' : doc'.Sound) (aligned : Aligned doc doc' F c d) (text : List Char)
    (span : Span) :
    doc'.slotPosition? (doc'.layout y text span).slots (doc'.nodes.size + 1) d =
      doc.slotPosition? (doc.layout x text span).slots (doc.nodes.size + 1) c := by
  obtain ⟨e, e', ends, ends', same⟩ := aligned
  have found := forall₂_findIdx? (p := fun id => id == e) (q := fun id => id == e') (parallel.layout_ids text span)
    fun f f' both => by
      rw [Bool.eq_iff_iff, beq_iff_eq, beq_iff_eq]
      exact same f f' both.1 both.2
  rw [sound'.position ends', sound.position ends]
  rw [List.findIdx?_map, List.findIdx?_map] at found
  exact found

variable (style : SameStyle doc doc' B) (texts : B b b')
include style texts

/-- Parallel object literals with entries in the same places that print the same do so. -/
theorem printObject (sound : doc.Sound) (sound' : doc'.Sound)
    (pairs : Forall₂ (fun c d => PrintsAs doc doc' print print' B c d ∧
      ((doc.role c).isEntry = true → Aligned doc doc' F c d)) (doc.children x) (doc'.children y)) (span : Span) :
    doc'.printObject print' y b' span = doc.printObject print x b span := by
  have text := style.text texts
  have listed : Forall₂ (fun c d => PrintsAs doc doc' print print' B c d ∧ Aligned doc doc' F c d) (doc.entries x)
      (doc'.entries y) := by
    refine forall₂_imp_mem (forall₂_filter pairs fun c _ d _ both => ?_) fun c member d _ both => ⟨both.1, both.2 ?_⟩
    · rw [show doc'.role d = doc.role c from congrArg Role.ofKind both.1.1]
    · exact (List.mem_filter.mp member).2
  have shown := listed.imp fun _ _ both => both.1
  have blank := parallel.layout_blank (doc.buffer b) span
  have slots : (doc'.layout y (doc.buffer b) span).slots.isEmpty = (doc.layout x (doc.buffer b) span).slots.isEmpty := by
    simpa only [Layout.slots_blank, List.isEmpty_map] using congrArg (·.slots.isEmpty) blank
  have opens : (doc'.layout y (doc.buffer b) span).openEnd = (doc.layout x (doc.buffer b) span).openEnd :=
    (congrArg Layout.openEnd blank :)
  have closes : (doc'.layout y (doc.buffer b) span).closeStart = (doc.layout x (doc.buffer b) span).closeStart :=
    (congrArg Layout.closeStart blank :)
  have before : (doc'.layout y (doc.buffer b) span).before (doc.buffer b) =
      (doc.layout x (doc.buffer b) span).before (doc.buffer b) := by
    rw [← Layout.before_blank, blank, Layout.before_blank]
  have after : (doc'.layout y (doc.buffer b) span).after (doc.buffer b) =
      (doc.layout x (doc.buffer b) span).after (doc.buffer b) := by
    rw [← Layout.after_blank, blank, Layout.after_blank]
  have laid : (doc'.layout y (doc.buffer b) span).span = (doc.layout x (doc.buffer b) span).span :=
    (congrArg Layout.span blank :)
  have body : ∀ indent multiline lineBreak,
      doc'.printEntries print' ⟨doc.buffer b, b', doc'.layout y (doc.buffer b) span, indent, multiline, lineBreak⟩ true none
        false ((doc'.entries y).map fun e =>
          (e, doc'.slotPosition? (doc'.layout y (doc.buffer b) span).slots (doc'.nodes.size + 1) e)) =
      doc.printEntries print ⟨doc.buffer b, b, doc.layout x (doc.buffer b) span, indent, multiline, lineBreak⟩ true none
        false ((doc.entries x).map fun e =>
          (e, doc.slotPosition? (doc.layout x (doc.buffer b) span).slots (doc.nodes.size + 1) e)) := by
    intro indent multiline lineBreak
    refine printEntries_congr (by simp only [Setting.blank, blank]) texts ?_ _ _ _
    rw [List.forall₂_map_left_iff, List.forall₂_map_right_iff]
    exact listed.imp fun c d both => ⟨parallel.position sound sound' both.2 (doc.buffer b) span, both.1⟩
  have inside : doc'.printObjectEntries print' (doc.buffer b) b' (doc'.layout y (doc.buffer b) span)
      (Text.lineIndent (doc.buffer b) span.start) (doc'.entries y) =
      doc.printObjectEntries print (doc.buffer b) b (doc.layout x (doc.buffer b) span)
        (Text.lineIndent (doc.buffer b) span.start) (doc.entries x) := by
    simp only [printObjectEntries, slotOf_eq, before, after, opens, closes, laid, style.newline, body]
  have bare := forall₂_isEmpty listed
  have expanded := printLines_congr style.newline shown texts
  unfold entries at bare inside expanded
  simp only [Document.printObject, text, slots, opens, closes, before, after, bare, inside, printExpanded, expanded,
    printEmptied, style.newline, style.indentUnit]

/-- Parallel nodes with children that print the same do so. -/
theorem printParts (pairs : Forall₂ (PrintsAs doc doc' print print' B) (doc.children x) (doc'.children y)) (span : Span) :
    doc'.printParts print' (doc'.node y) b' span = doc.printParts print (doc.node x) b span := by
  have text := style.text texts
  have count := parallel.firsts.length_eq
  have count' : (doc.node x).children.length = (doc'.node y).children.length := pairs.length_eq
  have places : doc'.printPlaces print' b' span.stop span.start ((doc'.node y).firstChildren.zip (doc'.node y).children) =
      doc.printPlaces print b span.stop span.start ((doc.node x).firstChildren.zip (doc.node x).children) :=
    printPlaces_congr text ((forall₂_zip parallel.firsts pairs).imp fun _ _ both =>
      ⟨both.1.2.origin.span?, both.2⟩) texts span.stop span.start
  have each : ∀ base, ((doc'.node y).children.flatMap fun c => doc'.printChild print' c base b') =
      (doc.node x).children.flatMap fun c => doc.printChild print c base b := fun base => by
    have same : (doc'.children y).map (fun c => doc'.printChild print' c base b') =
        (doc.children x).map fun c => doc.printChild print c base b :=
      forall₂_map_eq pairs fun c d both => both.2 base b b' texts
    rw [List.flatMap_def, List.flatMap_def]
    exact congrArg List.flatten same
  simp only [Document.printParts, ← count, ← count', places, text, each]

end Parallel

/-! ## Trees -/

/-- A parsed node is made from its parts, whether it has a mark or not. -/
theorem Sound.render_parsed (sound : doc.Sound) (shaped : doc.Shaped) {span : Span}
    (parsed : (doc.node x).origin = .parsed b span) (base : List Char) (context : BufferId) :
    doc.render x base context = if doc.role x = .object then doc.printObject doc.render x b span
      else doc.printParts doc.render (doc.node x) b span := by
  cases mark : (doc.node x).dirty with
  | false => rw [sound.print_clean shaped parsed mark, sound.forest.render_clean parsed mark]
  | true =>
    rw [sound.forest.render_eq]
    simp only [printWith, parsed, mark, Bool.not_true, Bool.false_eq_true, if_false]
    rfl

namespace Counterparts
variable (parts : Counterparts doc doc' B R) (sound : doc.Sound) (sound' : doc'.Sound) (shaped : doc.Shaped)
  (shaped' : doc'.Shaped)
  (closed : ∀ {x y}, S x y → R x y ∧ Forall₂ (fun c d => S c d ∧ ((doc.node x).isWritten = false → Seated doc doc' R c d))
    (doc.children x) (doc'.children y))
include parts sound sound' shaped shaped' closed

/-- Related trees, down to the last leaf, print the same. -/
theorem render (rel : S x y) (base : List Char) (texts : B b b') : doc'.render y base b' = doc.render x base b := by
  refine sound.forest.induction (P := fun x => ∀ y, S x y → ∀ base b b', B b b' →
    doc'.render y base b' = doc.render x base b) (fun x below y rel base b b' texts => ?_) x y rel base b b' texts
  obtain ⟨related, children⟩ := closed rel
  have pairs : Forall₂ (PrintsAs doc doc' doc.render doc'.render B) (doc.children x) (doc'.children y) :=
    forall₂_imp_mem children fun c member d _ both =>
      (parts.resembles (closed both.1).1).printsAs parts.style (below c member d both.1)
  have role := parts.role related
  have meets := parts.origin related
  cases from_text : (doc.node x).origin with
  | written text =>
    rw [from_text] at meets
    cases from_text' : (doc'.node y).origin with
    | parsed _ _ =>
      rw [from_text'] at meets
      cases meets
    | written text' =>
      rw [from_text'] at meets
      cases meets
      have written : doc'.printWritten doc'.render (doc'.node y) base b' = doc.printWritten doc.render (doc.node x) base b :=
        printWritten_congr parts.newline parts.indentUnit (parts.kind related) pairs texts base
      have bare : (doc'.node y).children.isEmpty = (doc.node x).children.isEmpty := forall₂_isEmpty pairs
      rw [sound'.forest.render_eq, sound.forest.render_eq]
      cases text <;> simp only [printWith, from_text, from_text', written, bare]
  | parsed buffer span =>
    rw [from_text] at meets
    cases from_text' : (doc'.node y).origin with
    | written _ =>
      rw [from_text'] at meets
      cases meets
    | parsed buffer' span' =>
      rw [from_text'] at meets
      obtain ⟨known⟩ := meets
      have aligned : Forall₂ (fun c d => PrintsAs doc doc' doc.render doc'.render B c d ∧
          ((doc.role c).isEntry = true → Aligned doc doc' R c d)) (doc.children x) (doc'.children y) := by
        have parsed : (doc.node x).isWritten = false := by simp [Node.isWritten, Node.buffer?, from_text]
        exact forall₂_imp_mem children fun c member d _ both =>
          ⟨(parts.resembles (closed both.1).1).printsAs parts.style (below c member d both.1),
            fun _ => (both.2 parsed).aligned parts.nodesOne⟩
      rw [sound'.render_parsed shaped' from_text', sound.render_parsed shaped from_text, role]
      split
      · exact (parts.parallel related).printObject parts.style known sound sound' aligned span
      · exact (parts.parallel related).printParts parts.style known pairs span

/-- Related trees tell the same, and have the same text. -/
theorem printNode_eq (rel : S x y) (files : B 0 0) : doc'.printNode y = doc.printNode x := by
  have shown : ∀ {b b'}, B b b' → doc'.render y [] b' = doc.render x [] b := fun texts =>
    parts.render sound sound' shaped shaped' closed rel [] texts
  have meets := parts.origin (closed rel).1
  show doc'.render y [] _ = doc.render x [] _
  unfold Node.buffer?
  generalize (doc.node x).origin = from_text at meets ⊢
  generalize (doc'.node y).origin = from_text' at meets ⊢
  cases meets with
  | written text => exact shown files
  | parsed texts => exact shown texts

/-- Documents with related roots print the same. -/
theorem print_eq (rel : S doc.root doc'.root) (files : B 0 0) : doc'.print = doc.print := by
  have node := parts.printNode_eq sound sound' shaped shaped' closed rel files
  have shown : doc'.printDown doc'.depth doc'.root [] 0 = doc.printDown doc.depth doc.root [] 0 :=
    parts.render sound sound' shaped shaped' closed rel [] files
  have source : doc'.source = doc.source := (parts.texts files).2.2
  simp only [Document.print, (parts.origin (closed rel).1).span?, node, shown, source]

end Counterparts

end Document

end StoreModels
