import StoreModels.Proofs.Document.Printing

/-!
Printing an object literal with one entry more. The old entries stay in their slots and the new one stands behind the
last of them with its comma and its comments, so nothing is lost: the text is the old one with a comma and the new entry
put in.
-/
namespace StoreModels
open Syntax (Span Role Outline)
open Text (slice splice Ordered Exchange)

variable {text : List Char} {stop : Nat}

/-! ## Commas -/

/-- The comma that an entry gets when another one comes behind it. -/
def Slot.addedComma (slot : Slot) : List Char := if slot.comma.isSome then [] else [',']

/-- The comma that comes behind a new last entry, as one came behind the old one. -/
def Slot.keptComma (slot : Slot) : List Char := if slot.comma.isSome then [','] else []

/-- The exchange that puts the comma in that an entry gets. -/
def Slot.commaPlace (slot : Slot) : Exchange := (⟨slot.span.stop, slot.span.stop⟩, slot.addedComma)

/-- What stands between a last entry and one that is appended. -/
def Layout.gapBehind (layout : Layout) (text newline : List Char) (slot : Slot) : List Char :=
  if (layout.before text).contains '\n' || slot.lineComment then newline ++ layout.entryIndent text else [' ']

/-- What stands behind an entry that gets a comma. -/
theorem printTail_comma (slot : Slot) :
    Document.printTail text (some slot) true = slot.addedComma ++ slice text slot.span.stop slot.tailEnd := by
  unfold Document.printTail Slot.addedComma
  cases comma : slot.comma <;> simp [comma]

/-- The places for commas behind a linked slot come one after another. -/
theorem Linked.commas {slot last : Slot} {rest : List Slot} (linked : Linked text stop (slot :: rest))
    (lastIs : (slot :: rest).getLast? = some last) :
    Ordered slot.tailEnd last.tailEnd ((rest.map Slot.commaPlace).map Prod.fst) := by
  induction rest generalizing slot with
  | nil =>
    cases lastIs
    exact Nat.le_refl _
  | cons second others ih =>
    obtain ⟨reaches, _, later⟩ := linked
    have stops : slot.tailEnd ≤ second.begins := reaches.stops
    refine ⟨Nat.le_trans stops (Nat.le_trans later.1.begins later.1.inside), Nat.le_refl _, ?_⟩
    exact (ih later lastIs).mono later.1.tail

/-- Of linked slots only the last one can lack its comma, so this is all that commas are put in for. -/
theorem Linked.splice_commas {slots : List Slot} {last : Slot} {start : Nat} (linked : Linked text stop slots)
    (lastIs : slots.getLast? = some last) (le : start ≤ beginsAt stop slots) :
    start ≤ last.span.stop ∧ splice text last.tailEnd start (slots.map Slot.commaPlace) =
      slice text start last.span.stop ++ last.addedComma ++ slice text last.span.stop last.tailEnd := by
  induction slots generalizing start with
  | nil => cases lastIs
  | cons slot rest ih =>
    obtain ⟨reaches, comma, later⟩ := linked
    have before : start ≤ slot.span.stop := Nat.le_trans (Nat.le_trans le reaches.begins) reaches.inside
    cases rest with
    | nil =>
      cases lastIs
      exact ⟨before, rfl⟩
    | cons second others =>
      obtain ⟨reach, same⟩ := ih later lastIs (Nat.le_trans reaches.tail reaches.stops)
      have none : slot.addedComma = [] := if_pos (comma (by simp))
      refine ⟨Nat.le_trans before reach, ?_⟩
      rw [List.map_cons, Slot.commaPlace, splice, same, none, List.append_nil]
      simp only [← List.append_assoc]
      rw [Text.slice_append text before reach]

/-- The last slot of a layout that covers a literal lies in the literal. -/
theorem Layout.Covers.last {layout : Layout} {slot : Slot} (covers : layout.Covers text)
    (is : layout.slots.getLast? = some slot) :
    layout.span.start ≤ slot.span.stop ∧ slot.tailEnd ≤ layout.span.stop := by
  obtain ⟨low, inside, _⟩ := covers.ordered.mem (List.mem_map_of_mem (List.mem_of_getLast? is))
  refine ⟨Nat.le_trans low inside, ?_⟩
  cases slots : layout.slots with
  | nil =>
    rw [slots] at is
    cases is
  | cons first rest =>
    have linked := covers.linked
    rw [slots] at is linked
    have tail : tailOf first.tailEnd rest = slot.tailEnd := by
      rw [← tailOf_cons 0, tailOf, is]
      rfl
    exact Nat.le_trans (tail ▸ linked.last.1) covers.closes

/-! ## Where an entry is appended -/

/-- What an appended entry is put behind in an object literal, and what tells how it is set. -/
structure Ending where
  opening : Item
  /-- The first entry. -/
  head : Item
  /-- The last entry. -/
  last : Item
  /-- What stands between the last entry and the closing brace. -/
  gap : List Item
  /-- The end of what goes with the last entry. -/
  tailEnd : Nat

namespace Ending

/-- What the end of an object literal is, from its children. -/
structure Of (text : List Char) (items : List Item) (ending : Ending) : Prop where
  opening : items.head? = some ending.opening
  head : items.find? Item.isEntry = some ending.head
  isEntry : ending.last.isEntry = true
  split : ∃ front closing, items = front ++ ending.last :: (ending.gap ++ [closing])
  others : ∀ i ∈ ending.gap, i.isEntry = false
  trails : TrailEnd text ending.last.span.stop false ending.gap ending.last.span.stop ending.tailEnd

/-- Whether there is a comma behind the last entry. -/
def hasComma (ending : Ending) : Bool := ending.gap.any Item.isComma

/-- What stands between the opening brace and the first entry. -/
def before (ending : Ending) (text : List Char) : List Char :=
  slice text ending.opening.span.stop ending.head.span.start

/-- The indentation of the first entry, if it stands below the opening brace, or else of the line that the literal starts
    on. -/
def indent (ending : Ending) (text : List Char) (span : Span) : List Char :=
  if '\n' ∈ ending.before text then lastIndent (ending.before text) else Text.lineIndent text span.start

/-- What separates an appended entry from what goes with the last one: a line break and the indentation if the first entry
    stands below the opening brace or if a line comment would go on, or else a blank. -/
def separator (ending : Ending) (text newline : List Char) (span : Span) : List Char :=
  if '\n' ∈ ending.before text ∨
      ∃ i ∈ ending.gap, i.span.stop = ending.tailEnd ∧ Outline.isLineComment text i.kind i.span = true
    then newline ++ ending.indent text span else [' ']

/-- A stretch of a text in which an entry, behind something that separates it, is appended to a literal. -/
def inserted (ending : Ending) (text separator entry : List Char) (start stop : Nat) : List Char :=
  slice text start ending.last.span.stop ++ (if ending.hasComma then [] else [',']) ++
    slice text ending.last.span.stop ending.tailEnd ++ separator ++ entry ++ (if ending.hasComma then [','] else []) ++
    slice text ending.tailEnd stop

/-- The text around goes on as it was. -/
theorem inserted_within (ending : Ending) (text separator entry : List Char) {start start' stop stop' : Nat}
    (before : start' ≤ start) (low : start ≤ ending.last.span.stop) (high : ending.tailEnd ≤ stop) (after : stop ≤ stop') :
    slice text start' start ++ ending.inserted text separator entry start stop ++ slice text stop stop' =
      ending.inserted text separator entry start' stop' := by
  rw [inserted, inserted, ← Text.slice_append text before low, ← Text.slice_append text high after]
  simp only [List.append_assoc]

end Ending

/-- The slot of a literal that an entry is appended behind tells what the end of the literal is. -/
theorem Layout.Braced.ending {span : Span} {items inner : List Item} {opening closing : Item} {slot : Slot}
    (braced : Layout.Braced text span items opening inner closing)
    (is : (Layout.ofItems text span items).slots.getLast? = some slot) :
    ∃ ending : Ending, ending.Of text items ∧ slot.id = ending.last.id ∧ slot.span = ending.last.span ∧
      slot.tailEnd = ending.tailEnd ∧ slot.comma.isSome = ending.hasComma ∧
      (Layout.ofItems text span items).entryIndent text = ending.indent text span ∧
      ∀ newline, (Layout.ofItems text span items).gapBehind text newline slot = ending.separator text newline span := by
  obtain ⟨front, last, gap, split, isEntry, others, closes⟩ := braced.last is
  have entries := braced.entries
  have first : ∃ head, items.find? Item.isEntry = some head := by
    rw [← Option.isSome_iff_exists, List.find?_isSome]
    exact ⟨last, by simp [split], isEntry⟩
  obtain ⟨head, headIs⟩ := first
  have place : ((Layout.ofItems text span items).slots.head?.map (·.span.start)).getD closing.span.start = head.span.start := by
    have found : (items.filter Item.isEntry).head? = some head := by rw [List.head?_filter, headIs]
    have same := congrArg (fun pairs => pairs.head?.map fun pair => pair.2.start) entries
    simp only [List.head?_map, found, Option.map_map, Option.map_some] at same
    have known : (Layout.ofItems text span items).slots.head?.map (·.span.start) = some head.span.start := same
    rw [known]
    rfl
  have before : (Layout.ofItems text span items).before text = slice text opening.span.stop head.span.start := by
    rw [Layout.before, ← place, braced.layout]
  have start : (Layout.ofItems text span items).span = span := by rw [braced.layout]
  obtain ⟨ending, endingIs⟩ : ∃ ending : Ending, ending = ⟨opening, head, last, gap, slot.tailEnd⟩ := ⟨_, rfl⟩
  have indent : (Layout.ofItems text span items).entryIndent text = ending.indent text span := by
    rw [Layout.entryIndent, before, start, endingIs]
    exact if_congr List.contains_iff_mem rfl rfl
  refine ⟨ending, ?_, ?_, ?_, ?_, ?_, indent, fun newline => ?_⟩
  · subst endingIs
    exact ⟨by simp [braced.split], headIs, isEntry, ⟨front, closing, split⟩, others, closes.trails⟩
  · rw [endingIs]
    exact closes.id
  · rw [endingIs]
    exact closes.span
  · rw [endingIs]
  · rw [endingIs]
    exact closes.comma
  · rw [Layout.gapBehind, before, indent, Ending.separator, endingIs]
    refine if_congr ?_ rfl rfl
    rw [Bool.or_eq_true, List.contains_iff_mem, closes.line]
    rfl

namespace Document
variable {doc : Document} {print : ChildPrinter} {setting : Setting} {new : NodeId}

/-- An entry in its slot prints as it was. -/
def Verbatim (doc : Document) (print : ChildPrinter) (setting : Setting) (entry : NodeId) (slot : Slot) : Prop :=
  doc.printChild print entry setting.indent setting.buffer = slice setting.text slot.span.start slot.span.stop

/-- What stands before a new entry behind the last slot. -/
theorem gap_new {done : List Slot} {last : Slot} (all : setting.layout.slots = done ++ [last]) (line : Bool) :
    (if (line && !(setting.gap (some done.length) none).contains '\n') = true then setting.lineBreak
      else setting.gap (some done.length) none) =
      if setting.multiline || line then setting.lineBreak else [' '] := by
  have count : setting.layout.slots.length = done.length + 1 := by simp [all]
  have gap : setting.gap (some done.length) none = if setting.multiline then setting.lineBreak else [' '] := by
    simp [Setting.gap, count]
  rw [gap]
  cases setting.multiline <;> cases line <;> simp

/-- What is printed behind the last slot with a new entry. -/
def printedNew (doc : Document) (print : ChildPrinter) (setting : Setting) (last : Slot) (new : NodeId) : List Char :=
  (if setting.multiline || last.lineComment then setting.lineBreak else [' ']) ++
    doc.printChild print new setting.indent setting.buffer ++ last.keptComma

/-- The entries after a slot, each as it was in its own slot, and a new one print as the text behind with a comma and the
    new one put in. -/
theorem printEntries_new {rest done : List Slot} {previous last : Slot} {entries : List NodeId}
    (all : setting.layout.slots = done ++ previous :: rest) (linked : Linked setting.text stop (previous :: rest))
    (lastIs : (previous :: rest).getLast? = some last) (same : List.Forall₂ (doc.Verbatim print setting) entries rest) :
    doc.printEntries print setting false (some done.length) previous.lineComment
        (numbered (done.length + 1) entries ++ [(new, none)]) =
      (splice setting.text last.tailEnd previous.tailEnd (rest.map Slot.commaPlace) ++
        doc.printedNew print setting last new, false) := by
  induction rest generalizing done previous entries with
  | nil =>
    cases same
    obtain rfl : previous = last := Option.some.inj lastIs
    have trailing : setting.layout.slots.getLast? = some previous := by rw [all]; simp
    simp only [numbered, List.zipIdx_nil, List.map_nil, List.nil_append, printEntries, Bool.false_eq_true, if_false,
      Option.bind_none, Option.map_none, Option.getD_none, trailing, Option.bind_some, List.isEmpty_nil, Bool.not_true,
      Bool.false_or, printTail, Setting.lead, List.append_nil, splice, Text.slice_self, gap_new all]
    rfl
  | cons slot more ih =>
    cases same with
    | @cons entry _ others _ verbatim sameLater =>
      obtain ⟨reaches, _, later⟩ := linked
      have all' : setting.layout.slots = (done ++ [previous]) ++ slot :: more := by rw [all]; simp
      have lastIs' : (slot :: more).getLast? = some last := lastIs
      have step := ih all' later lastIs' sameLater
      rw [List.length_append, List.length_singleton] at step
      have wants : setting.wantsComma (numbered (done.length + 1 + 1) others ++ [(new, none)]) = true := by
        simp [Setting.wantsComma]
      have here : doc.printChild print entry setting.indent setting.buffer = _ := verbatim
      rw [numbered_cons, List.cons_append, printEntries_step all reaches later.1.begins, wants, printTail_comma, step, here,
        Text.slice_append setting.text (Nat.le_trans reaches.stops later.1.begins) later.1.inside]
      refine congrArg (fun printed => (printed, false)) ?_
      simp only [List.map_cons, splice, Slot.commaPlace, List.append_assoc]
      rw [← List.append_assoc (slice setting.text slot.span.stop slot.tailEnd),
        Text.slice_append_splice setting.text later.1.tail (later.commas lastIs')]

/-- All entries, each as it was in its own slot, and a new one print as the text from the first one on with a comma and
    the new one put in. -/
theorem printEntries_allNew {slot last : Slot} {rest : List Slot} {entries : List NodeId}
    (all : setting.layout.slots = slot :: rest) (linked : Linked setting.text stop (slot :: rest))
    (bare : slot.lead = none) (lastIs : (slot :: rest).getLast? = some last)
    (same : List.Forall₂ (doc.Verbatim print setting) entries (slot :: rest)) :
    doc.printEntries print setting true none false (numbered 0 entries ++ [(new, none)]) =
      (splice setting.text last.tailEnd slot.span.start ((slot :: rest).map Slot.commaPlace) ++
        doc.printedNew print setting last new, false) := by
  cases same with
  | @cons entry _ others _ verbatim later =>
    have all' : setting.layout.slots = [] ++ slot :: rest := all
    have step : doc.printEntries print setting false (some 0) _ (numbered (0 + 1) others ++ [(new, none)]) = _ :=
      printEntries_new all' linked lastIs later
    have wants : setting.wantsComma (numbered (0 + 1) others ++ [(new, none)]) = true := by simp [Setting.wantsComma]
    have here : doc.printChild print entry setting.indent setting.buffer = _ := verbatim
    rw [numbered_cons, List.cons_append, printEntries_first all bare, wants, printTail_comma, step, here]
    refine congrArg (fun printed => (printed, false)) ?_
    simp only [List.map_cons, splice, Slot.commaPlace, List.append_assoc]
    rw [← List.append_assoc (slice setting.text slot.span.stop slot.tailEnd),
      Text.slice_append_splice setting.text linked.1.tail (linked.commas lastIs)]

/-- The old entries are in their slots and a new one is in none. -/
theorem positions_new {slots : List Slot} {entries : List NodeId} (sound : doc.Sound) (ids : slots.map Slot.id = entries)
    (distinct : entries.Nodup) (settled : ∀ f ∈ entries, (doc.node f).replaces = none) (other : new ∉ entries)
    (fresh : (doc.node new).replaces = none) :
    ((entries ++ [new]).map fun entry => (entry, doc.slotPosition? slots (doc.nodes.size + 1) entry)) =
      numbered 0 entries ++ [(new, none)] := by
  subst ids
  have olds := positions_eq [] slots sound distinct (fun slot member => settled _ (List.mem_map_of_mem member))
    (List.forall₂_same.mpr fun f member => .here (settled f member))
  have absent : slots.findIdx? (·.id == new) = none := by
    rw [List.findIdx?_eq_none_iff]
    exact fun slot member => beq_eq_false_iff_ne.mpr fun same => other (same ▸ List.mem_map_of_mem member)
  have none : doc.slotPosition? slots (doc.nodes.size + 1) new = none := by
    rw [slotPosition?, absent, fresh]
    rfl
  rw [List.map_append, List.map_singleton, none]
  exact congrArg (· ++ _) olds

/-! ## Object literals -/

/-- A changed object literal with one entry more, and with the others as they were, is its text with a comma and the new
    entry put in. -/
theorem printObjectEntries_new {layout : Layout} {entries : List NodeId} {buffer : BufferId} {last : Slot} (sound : doc.Sound)
    (covers : layout.Covers text) (lastIs : layout.slots.getLast? = some last) (ids : layout.slots.map Slot.id = entries)
    (distinct : entries.Nodup) (settled : ∀ f ∈ entries, (doc.node f).replaces = none) (other : new ∉ entries)
    (fresh : (doc.node new).replaces = none)
    (same : List.Forall₂ (doc.Verbatim print (doc.entrySetting text buffer layout)) entries layout.slots) :
    doc.printObjectEntries print text buffer layout (Text.lineIndent text layout.span.start) (entries ++ [new]) =
      slice text layout.span.start last.span.stop ++ last.addedComma ++ slice text last.span.stop last.tailEnd ++
        layout.gapBehind text doc.newline.text last ++ doc.printChild print new (layout.entryIndent text) buffer ++
        last.keptComma ++ slice text last.tailEnd layout.span.stop := by
  have positions := positions_new sound ids distinct settled other fresh
  cases slots : layout.slots with
  | nil =>
    rw [slots] at lastIs
    cases lastIs
  | cons slot rest =>
    obtain ⟨opens, starts, linked, bare, closes⟩ := covers
    rw [slots] at starts linked bare same
    have bare := bare slot rfl
    have first : slot.begins = slot.span.start := by rw [Slot.begins, bare]; rfl
    have starts : layout.openEnd ≤ slot.span.start := first ▸ starts
    have before : layout.before text = slice text layout.openEnd slot.span.start := by
      simp [Layout.before, slots]
    have after : layout.after text = slice text last.tailEnd layout.closeStart := by
      simp [Layout.after, lastIs]
    have lastIs' : (slot :: rest).getLast? = some last := slots ▸ lastIs
    have body : doc.printEntries print (doc.entrySetting text buffer layout) true none false
        (numbered 0 entries ++ [(new, none)]) = _ := printEntries_allNew slots linked bare lastIs' same
    obtain ⟨reach, commas⟩ := linked.splice_commas lastIs' (Nat.le_of_eq first.symm)
    obtain ⟨high, _⟩ := linked.last
    have tail : tailOf slot.tailEnd rest = last.tailEnd := by
      rw [← tailOf_cons 0, tailOf, lastIs']
      rfl
    rw [tail] at high
    rw [← positions] at body
    have setting : (doc.entrySetting text buffer layout).text = text := rfl
    rw [printObjectEntries_eq body, before, after, setting, commas]
    simp only [Bool.false_and, Bool.false_eq_true, if_false]
    have front : slice text layout.span.start layout.openEnd ++ slice text layout.openEnd slot.span.start ++
        slice text slot.span.start last.span.stop = slice text layout.span.start last.span.stop := by
      rw [Text.slice_append text opens starts, Text.slice_append text (Nat.le_trans opens starts) reach]
    rw [← front, ← Text.slice_append text high closes]
    simp only [printedNew, Layout.gapBehind, entrySetting, List.append_assoc]
    rfl

/-- A changed object literal with one entry more, and with the others as they were, is its text with a comma and the new
    entry put in. -/
theorem printObject_new {id : NodeId} {buffer : BufferId} {span : Span} {outline : Outline} (sound : doc.Sound)
    (object : doc.role id = .object) (places : List.Forall₂ (doc.IsAt buffer) (doc.node id).firstChildren outline)
    (fits : outline.Fits (doc.buffer buffer) (doc.node id).kind span)
    (grown : doc.entries id = doc.firstEntries id ++ [new]) (some : doc.firstEntries id ≠ [])
    (other : new ∉ doc.firstEntries id) (fresh : (doc.node new).replaces = none)
    (same : ∀ f ∈ doc.firstEntries id, ∀ place, (doc.node f).origin = .parsed buffer place → ∀ indent,
      doc.printChild print f indent buffer = slice (doc.buffer buffer) place.start place.stop) :
    ∃ ending : Ending, ending.Of (doc.buffer buffer) (doc.parsedItems id) ∧ span.start < span.stop ∧
      span.start ≤ ending.last.span.stop ∧ ending.tailEnd ≤ span.stop ∧ doc.printObject print id buffer span =
        ending.inserted (doc.buffer buffer) (ending.separator (doc.buffer buffer) doc.newline.text span)
          (doc.printChild print new (ending.indent (doc.buffer buffer) span) buffer) span.start span.stop := by
  obtain ⟨braced, slotIds, each⟩ := layout_slots places object fits
  obtain ⟨_, _, _, braced⟩ := braced fun none => some (by rw [firstEntries, none, List.filter_nil])
  have covers : (doc.layout id (doc.buffer buffer) span).Covers (doc.buffer buffer) := braced.covers
  have more : (doc.layout id (doc.buffer buffer) span).slots ≠ [] := fun none => some (by rw [← slotIds, none]; rfl)
  obtain ⟨last, lastIs⟩ : ∃ last, (doc.layout id (doc.buffer buffer) span).slots.getLast? = Option.some last :=
    ⟨_, List.getLast?_eq_getLast_of_ne_nil more⟩
  obtain ⟨ending, is, _, place, tailEnd, comma, indent, separator⟩ := braced.ending lastIs
  obtain ⟨low, high⟩ := covers.last lastIs
  have settled : ∀ f ∈ doc.firstEntries id, (doc.node f).replaces = none := fun f member =>
    sound.firstTookNone (List.mem_of_mem_filter member)
  have verbatim : List.Forall₂ (doc.Verbatim print (doc.entrySetting (doc.buffer buffer) buffer
      (doc.layout id (doc.buffer buffer) span))) (doc.firstEntries id) (doc.layout id (doc.buffer buffer) span).slots := by
    rw [← slotIds, List.forall₂_map_left_iff, List.forall₂_same]
    intro slot member
    exact same slot.id (slotIds ▸ List.mem_map_of_mem member) slot.span (each slot member) _
  have printed := printObjectEntries_new sound covers lastIs slotIds ((sound.firstNodup id).filter _) settled other fresh
    verbatim
  refine ⟨ending, is, braced.wide, place ▸ low, tailEnd ▸ high, ?_⟩
  have many : ((doc.children id).filter fun c => (doc.role c).isEntry) = doc.firstEntries id ++ [new] := grown
  unfold printObject
  simp only [many]
  rw [if_neg (by simpa using more), if_neg (by simp)]
  refine printed.trans ?_
  have gap := separator doc.newline.text
  change Layout.gapBehind (doc.layout id (doc.buffer buffer) span) _ _ _ = _ at gap
  change Layout.entryIndent (doc.layout id (doc.buffer buffer) span) _ = _ at indent
  rw [gap, indent, Slot.addedComma, Slot.keptComma, comma, place, tailEnd]
  rfl

end Document

end StoreModels
