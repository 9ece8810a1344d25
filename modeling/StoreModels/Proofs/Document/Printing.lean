import Mathlib.Data.List.TakeWhile
import StoreModels.Model.Key
import StoreModels.Proofs.Document.Slots
import StoreModels.Proofs.Document.Walks
import StoreModels.Proofs.Document.Moves

/-!
Printing a node whose parts are all in their places. A changed object literal that neither gained nor lost entries, and
any other changed node, prints as the text it came from with its parts exchanged for what they print as now. This is
where the shares of a literal (prefix, leads, commas, tails, gaps and suffix) are put together again.
-/
namespace StoreModels
open Syntax (Span Role Outline)
open Text (slice splice Ordered Exchange)

variable {text : List Char} {stop : Nat}

/-! ## Layouts -/

/-- A layout covers a literal from its start to its end. -/
structure Layout.Covers (text : List Char) (layout : Layout) : Prop where
  opens : layout.span.start ≤ layout.openEnd
  starts : layout.openEnd ≤ beginsAt layout.closeStart layout.slots
  linked : Linked text layout.closeStart layout.slots
  bare : ∀ slot ∈ layout.slots.head?, slot.lead = none
  closes : layout.closeStart ≤ layout.span.stop

/-- The indentation of the entries of a literal: that of the line on which the first one stands below the opening brace,
    or else of the line that the literal starts on. -/
def Layout.entryIndent (layout : Layout) (text : List Char) : List Char :=
  if (layout.before text).contains '\n' then lastIndent (layout.before text)
  else Text.lineIndent text layout.span.start

theorem Layout.isIndent_entryIndent (layout : Layout) {c : Char} (member : c ∈ layout.entryIndent text) :
    Text.isIndent c = true := by
  unfold Layout.entryIndent at member
  split at member
  · exact List.mem_takeWhile_imp member
  · exact List.mem_takeWhile_imp member

theorem filter_inner {opening closing : Item} {inner : List Item}
    (opens : opening.span.start < opening.span.stop) (closes : closing.span.start < closing.span.stop)
    (ordered : Ordered opening.span.stop stop ((inner ++ [closing]).map Item.span)) :
    ((opening :: (inner ++ [closing])).filter fun item =>
      decide (opening.span.stop ≤ item.span.start) && decide (item.span.stop ≤ closing.span.start)) = inner := by
  rw [List.map_append] at ordered
  obtain ⟨inside, _⟩ := ordered.split
  have first : ¬ opening.span.stop ≤ opening.span.start := Nat.not_le_of_gt opens
  have last : ¬ closing.span.stop ≤ closing.span.start := Nat.not_le_of_gt closes
  have keep : inner.filter (fun item =>
      decide (opening.span.stop ≤ item.span.start) && decide (item.span.stop ≤ closing.span.start)) = inner := by
    refine List.filter_eq_self.mpr fun item member => ?_
    obtain ⟨low, _, high⟩ := inside.mem (List.mem_map_of_mem member)
    simp only [Bool.and_eq_true, decide_eq_true_eq]
    exact ⟨low, high⟩
  simp [List.filter_append, keep, first, last]

/-- Slots are those of the entries among some items. -/
theorem slots_ids (text : List Char) (lead : Option Nat) (items : List Item) :
    (slotsOf text lead (groupItems items).2).map Slot.id = (items.filter Item.isEntry).map Item.id := by
  have entries := congrArg (List.map Prod.fst) (slotsOf_entries text lead (groupItems items).2)
  rw [filter_isEntry]
  simpa [Function.comp_def] using entries

/-- A literal's children are the braces and what lies in order between them. -/
structure Layout.Framed (text : List Char) (span : Span) (items : List Item) (opening : Item) (inner : List Item)
    (closing : Item) : Prop where
  split : items = opening :: (inner ++ [closing])
  layout : Layout.ofItems text span items = ⟨span, opening.span.stop, closing.span.start, slotsOf text none (groupItems inner).2⟩
  begins : span.start ≤ opening.span.start
  opens : opening.span.start < opening.span.stop
  inside : Ordered opening.span.stop closing.span.start (inner.map Item.span)
  closes : closing.span.start < closing.span.stop
  ends : closing.span.stop ≤ span.stop
  openKind : opening.isEntry = false
  closeKind : closing.isEntry = false

/-- A literal's children are the braces and what lies in order between them, with commas between the entries and line feeds
    behind the line comments. -/
structure Layout.Braced (text : List Char) (span : Span) (items : List Item) (opening : Item) (inner : List Item)
    (closing : Item) : Prop extends Layout.Framed text span items opening inner closing where
  separated : Outline.isSeparated false (inner.map Item.part) = true
  endsLines : Outline.endsLines text (inner.map Item.part ++ [closing.part]) = true

/-- Children in order between two braces. -/
theorem Layout.framed {span : Span} {opening closing : Item} {inner : List Item}
    (ordered : Ordered span.start span.stop ((opening :: (inner ++ [closing])).map Item.span))
    (opens : Outline.isBrace "\x7b" opening.part = true) (closes : Outline.isBrace "\x7d" closing.part = true) :
    Layout.Framed text span (opening :: (inner ++ [closing])) opening inner closing := by
  simp only [Outline.isBrace, Bool.and_eq_true, decide_eq_true_eq, beq_iff_eq] at opens closes
  have openKind : opening.isEntry = false := by
    unfold Item.isEntry
    rw [show opening.kind = "\x7b" from opens.1]
    rfl
  have closeKind : closing.isEntry = false := by
    unfold Item.isEntry
    rw [show closing.kind = "\x7d" from closes.1]
    rfl
  obtain ⟨before, _, within⟩ := ordered
  have is : Layout.ofItems text span (opening :: (inner ++ [closing])) =
      ⟨span, opening.span.stop, closing.span.start, slotsOf text none (groupItems inner).2⟩ := by
    have last : (opening :: (inner ++ [closing])).getLast? = some closing := by
      rw [← List.cons_append, List.getLast?_append]
      rfl
    unfold Layout.ofItems
    rw [last]
    exact congrArg (fun found => Layout.mk span opening.span.stop closing.span.start
      (slotsOf text none (groupItems found).2)) (filter_inner opens.2 closes.2 within)
  rw [List.map_append] at within
  obtain ⟨inside, _, _, ends⟩ := within.split
  exact ⟨rfl, is, before, opens.2, inside, closes.2, ends, openKind, closeKind⟩

/-- The children of a literal that lie in order between two braces are framed. -/
theorem Layout.ofItems_framed {span : Span} {items : List Item} (ordered : Ordered span.start span.stop (items.map Item.span))
    (braces : Outline.isBraced (items.map Item.part) = true) :
    ∃ opening inner closing, Layout.Framed text span items opening inner closing ∧
      Outline.isBrace "\x7b" opening.part = true ∧ Outline.isBrace "\x7d" closing.part = true := by
  obtain ⟨openingPart, innerParts, closingPart, split, opens, closes⟩ := Outline.isBraced_split braces
  obtain ⟨opening, rest, rfl, rfl, restIs⟩ := List.map_eq_cons_iff.mp split
  obtain ⟨inner, final, rfl, rfl, finalIs⟩ := List.map_eq_append_iff.mp restIs
  obtain ⟨closing, none, rfl, rfl, noneIs⟩ := List.map_eq_cons_iff.mp finalIs
  rw [List.map_eq_nil_iff] at noneIs
  subst noneIs
  exact ⟨opening, inner, closing, Layout.framed ordered opens closes, opens, closes⟩

/-- The children of a literal that fit it are braced. -/
theorem Layout.ofItems_braced {kind : String} {span : Span} {items : List Item} (object : Role.ofKind kind = .object)
    (some : items ≠ []) (fits : Outline.Fits text kind span (items.map Item.part)) :
    ∃ opening inner closing, Layout.Braced text span items opening inner closing := by
  obtain ⟨ordered, shape⟩ := fits
  obtain ⟨openingPart, innerParts, closingPart, split, opens, closes, separated, endsLines⟩ :=
    Outline.isObject_split ((shape object).resolve_left fun keyword => some (List.map_eq_nil_iff.mp keyword.1))
  obtain ⟨opening, rest, rfl, openingIs, restIs⟩ := List.map_eq_cons_iff.mp split
  obtain ⟨inner, final, rfl, innerIs, finalIs⟩ := List.map_eq_append_iff.mp restIs
  obtain ⟨closing, none, rfl, closingIs, noneIs⟩ := List.map_eq_cons_iff.mp finalIs
  rw [List.map_eq_nil_iff] at noneIs
  subst noneIs openingIs innerIs closingIs
  have ordered : Ordered span.start span.stop ((opening :: (inner ++ [closing])).map Item.span) := by
    simpa [Item.part, Function.comp_def] using ordered
  exact ⟨opening, inner, closing, Layout.framed ordered opens closes, separated, endsLines⟩

namespace Layout.Framed
variable {span : Span} {items inner : List Item} {opening closing : Item}
  (framed : Layout.Framed text span items opening inner closing)
include framed

theorem wide : span.start < span.stop := by
  have low := framed.begins
  have opens := framed.opens
  have inside := framed.inside.le
  have closes := framed.closes
  have high := framed.ends
  omega

/-- The slots of a literal are its entries. -/
theorem entries : (Layout.ofItems text span items).slots.map (fun slot => (slot.id, slot.span)) =
    (items.filter Item.isEntry).map fun item => (item.id, item.span) := by
  rw [framed.layout, slotsOf_entries, framed.split, List.filter_cons_of_neg (by simp [framed.openKind]),
    List.filter_append, filter_isEntry, List.filter_cons_of_neg (by simp [framed.closeKind])]
  simp

end Layout.Framed

namespace Layout.Braced
variable {span : Span} {items inner : List Item} {opening closing : Item}
  (braced : Layout.Braced text span items opening inner closing)
include braced

/-- The layout of a literal covers it. -/
theorem covers : (Layout.ofItems text span items).Covers text := by
  rw [braced.layout]
  obtain ⟨same, plain, grouped⟩ := groupItems_spec inner
  have inside := braced.inside
  have separated := braced.separated
  have ends := braced.endsLines
  rw [same, List.map_append] at inside ends separated
  generalize (groupItems inner).1 = head at *
  generalize (groupItems inner).2 = groups at *
  obtain ⟨left, right⟩ := inside.split
  obtain ⟨entered, separated⟩ := isSeparated_gap plain separated
  rw [List.append_assoc] at ends
  refine ⟨?_, ?_, ?_, slotsOf_begins text groups, ?_⟩
  · exact Nat.le_trans braced.begins (Nat.le_of_lt braced.opens)
  · have low := left.le
    cases groups with
    | nil => exact low
    | cons group rest => exact low
  · refine slotsOf_linked right (endsLines_suffix ends) rfl separated grouped ?_
    exact fun _ _ => Nat.le_refl _
  · exact Nat.le_trans (Nat.le_of_lt braced.closes) braced.ends

/-- The last slot of a literal is that of its last entry. -/
theorem last {slot : Slot} (is : (Layout.ofItems text span items).slots.getLast? = some slot) :
    ∃ front entry gap, items = front ++ entry :: (gap ++ [closing]) ∧ entry.isEntry = true ∧
      (∀ i ∈ gap, i.isEntry = false) ∧ slot.Closes text entry gap := by
  rw [braced.layout] at is
  obtain ⟨same, _, grouped⟩ := groupItems_spec inner
  have inside := braced.inside
  have ends := braced.endsLines
  rw [same, List.map_append] at inside ends
  rw [List.append_assoc] at ends
  obtain ⟨before, entry, gap, split, member, closes⟩ :=
    slotsOf_last inside.split.2 (endsLines_suffix ends) rfl is
  obtain ⟨isEntry, others⟩ := grouped _ member
  refine ⟨opening :: ((groupItems inner).1 ++ before), entry, gap, ?_, isEntry, others, closes⟩
  rw [braced.split]
  nth_rewrite 1 [same]
  rw [split]
  simp

end Layout.Braced

/-! ## Entries in their slots -/

/-- Slots and what their entries print as now. -/
def exchanges (slots : List Slot) (printed : List (List Char)) : List Exchange :=
  (slots.map Slot.span).zip printed

/-- Where the last of some slots ends with its tail. -/
def tailOf (start : Nat) (slots : List Slot) : Nat := (slots.getLast?.map Slot.tailEnd).getD start

/-- Whether the last of some slots ends in a line comment. -/
def lineOf (given : Bool) (slots : List Slot) : Bool := (slots.getLast?.map Slot.lineComment).getD given

theorem getD_getLast?_cons {α β : Type} (f : α → β) (given : β) (a : α) (rest : List α) :
    ((a :: rest).getLast?.map f).getD given = (rest.getLast?.map f).getD (f a) := by
  rw [List.getLast?_cons]
  cases rest.getLast? <;> rfl

theorem tailOf_cons (start : Nat) (slot : Slot) (rest : List Slot) :
    tailOf start (slot :: rest) = tailOf slot.tailEnd rest := getD_getLast?_cons _ _ _ _

theorem lineOf_cons (given : Bool) (slot : Slot) (rest : List Slot) :
    lineOf given (slot :: rest) = lineOf slot.lineComment rest := getD_getLast?_cons _ _ _ _

/-- Linked slots are parts one after another up to the tail of the last one. -/
theorem Linked.spans {slots : List Slot} {start : Nat} (linked : Linked text stop slots)
    (le : start ≤ beginsAt stop slots) : Ordered start (tailOf start slots) (slots.map Slot.span) := by
  induction slots generalizing start with
  | nil => exact Nat.le_refl _
  | cons slot rest ih =>
    obtain ⟨reaches, _, later⟩ := linked
    have le' : start ≤ slot.begins := le
    refine ⟨Nat.le_trans le' reaches.begins, reaches.inside, ?_⟩
    rw [tailOf_cons]
    exact (ih later reaches.stops).mono reaches.tail

theorem Linked.ordered {slots : List Slot} {start : Nat} {printed : List (List Char)} (linked : Linked text stop slots)
    (le : start ≤ beginsAt stop slots) (same : printed.length = slots.length) :
    Ordered start (tailOf start slots) ((exchanges slots printed).map Prod.fst) := by
  rw [exchanges, List.map_fst_zip (Nat.le_of_eq (by rw [List.length_map, same]))]
  exact linked.spans le

/-- The last tail ends before the literal does, and a line feed stands between them after a line comment. -/
theorem Linked.last {slot : Slot} {rest : List Slot} (linked : Linked text stop (slot :: rest)) :
    tailOf slot.tailEnd rest ≤ stop ∧
      (lineOf slot.lineComment rest = true → '\n' ∈ slice text (tailOf slot.tailEnd rest) stop) := by
  induction rest generalizing slot with
  | nil => exact ⟨linked.1.stops, linked.1.feed⟩
  | cons second others ih =>
    rw [tailOf_cons, lineOf_cons]
    exact ih linked.2.2

/-- The entries of a literal lie one after another in it. -/
theorem Layout.Covers.ordered {layout : Layout} (covers : layout.Covers text) :
    Ordered layout.span.start layout.span.stop (layout.slots.map Slot.span) := by
  obtain ⟨opens, starts, linked, _, closes⟩ := covers
  have spans := linked.spans starts
  have last : tailOf layout.openEnd layout.slots ≤ layout.closeStart := by
    cases slots : layout.slots with
    | nil =>
      rw [slots] at starts
      exact starts
    | cons slot rest =>
      rw [slots] at linked
      rw [tailOf_cons]
      exact linked.last.1
  have behind : Ordered (tailOf layout.openEnd layout.slots) layout.span.stop [] := Nat.le_trans last closes
  simpa using (spans.append behind).mono opens

namespace Document
variable {doc : Document} {print : ChildPrinter} {setting : Setting}

/-- What stands behind an entry in its slot is printed as it was. -/
theorem printTail_verbatim {slot : Slot} {wantsComma : Bool} (same : wantsComma = slot.comma.isSome) :
    printTail text (some slot) wantsComma = slice text slot.span.stop slot.tailEnd := by
  unfold printTail
  rw [same]
  cases comma : slot.comma <;> simp [comma]

theorem gapBefore_eq {layout : Layout} {done rest : List Slot} {previous slot : Slot}
    (all : layout.slots = done ++ previous :: slot :: rest) :
    layout.gapBefore text (done.length + 1) = slice text previous.tailEnd slot.begins := by
  have before : layout.slots[done.length]? = some previous := by simp [all]
  have here : layout.slots[done.length + 1]? = some slot := by simp [all]
  simp only [Layout.gapBefore, Nat.add_sub_cancel, before, here, Slot.begins]

theorem lead_eq (setting : Setting) (slot : Slot) :
    setting.lead (some slot) = slice setting.text slot.begins slot.span.start := by
  obtain ⟨id, span, lead, comma, tailEnd, lineComment⟩ := slot
  cases lead with
  | none => exact (Text.slice_self _ _).symm
  | some s => rfl

/-- Entries with positions that count up from some number. -/
def numbered (first : Nat) (entries : List NodeId) : List (NodeId × Option Nat) :=
  (entries.zipIdx first).map fun (entry, position) => (entry, some position)

theorem numbered_cons (first : Nat) (entry : NodeId) (rest : List NodeId) :
    numbered first (entry :: rest) = (entry, some first) :: numbered (first + 1) rest := rfl

theorem numbered_isEmpty (first : Nat) (entries : List NodeId) : (numbered first entries).isEmpty = entries.isEmpty := by
  cases entries <;> rfl

/-- What the entries print as. -/
def printedEntries (doc : Document) (print : ChildPrinter) (setting : Setting) (entries : List NodeId) : List (List Char) :=
  entries.map fun entry => doc.printChild print entry setting.indent setting.buffer

/-- A slot's comma is wanted exactly where it has one. -/
theorem wantsComma_eq {layout : Layout} {done rest : List Slot} {slot : Slot} {entries : List NodeId} {n : Nat}
    (all : layout.slots = done ++ slot :: rest) (linked : Linked text stop (slot :: rest))
    (same : entries.length = rest.length) :
    (!(numbered n entries).isEmpty || (layout.slots.getLast?.bind (·.comma)).isSome) = slot.comma.isSome := by
  rw [numbered_isEmpty]
  cases rest with
  | nil =>
    rw [List.length_eq_zero_iff.mp same, all]
    simp
  | cons next others =>
    cases entries with
    | nil => cases same
    | cons entry more =>
      rw [linked.2.1 (by simp)]
      rfl

/-- Whether an entry with others behind it gets a comma, or is the last one and had one. -/
def Setting.wantsComma (setting : Setting) (more : List (NodeId × Option Nat)) : Bool :=
  !more.isEmpty || (setting.layout.slots.getLast?.bind (·.comma)).isSome

/-- An entry in a slot prints, after others, behind what stands between the slot and the one before it, or behind a line
    break where that would go on with a line comment. -/
theorem printEntries_behind {done rest : List Slot} {previous slot : Slot} {entry : NodeId}
    (all : setting.layout.slots = done ++ previous :: slot :: rest) (position : Option Nat) (line : Bool)
    (more : List (NodeId × Option Nat)) :
    doc.printEntries print setting false position line ((entry, some (done.length + 1)) :: more) =
      ((if line && !(slice setting.text previous.tailEnd slot.begins).contains '\n' then setting.lineBreak
        else slice setting.text previous.tailEnd slot.begins) ++ slice setting.text slot.begins slot.span.start ++
        doc.printChild print entry setting.indent setting.buffer ++
        printTail setting.text (some slot) (setting.wantsComma more) ++
        (doc.printEntries print setting false (some (done.length + 1)) slot.lineComment more).1,
      (doc.printEntries print setting false (some (done.length + 1)) slot.lineComment more).2) := by
  have here : setting.layout.slots[done.length + 1]? = some slot := by simp [all]
  have gap : setting.gap position (some (done.length + 1)) = slice setting.text previous.tailEnd slot.begins := by
    simp only [Setting.gap, Nat.succ_pos, if_true, gapBefore_eq all]
  rw [printEntries]
  simp only [Bool.false_eq_true, if_false, Option.bind_some, here, Option.map_some, Option.getD_some, gap, lead_eq]
  rfl

/-- An entry in the slot behind another one prints behind what stands between the two. -/
theorem printEntries_step {done rest : List Slot} {previous slot : Slot} {entry : NodeId}
    (all : setting.layout.slots = done ++ previous :: slot :: rest) (reaches : previous.Reaches setting.text slot.begins)
    (begins : slot.begins ≤ slot.span.start) (more : List (NodeId × Option Nat)) :
    doc.printEntries print setting false (some done.length) previous.lineComment ((entry, some (done.length + 1)) :: more) =
      (slice setting.text previous.tailEnd slot.span.start ++ doc.printChild print entry setting.indent setting.buffer ++
        printTail setting.text (some slot) (setting.wantsComma more) ++
        (doc.printEntries print setting false (some (done.length + 1)) slot.lineComment more).1,
      (doc.printEntries print setting false (some (done.length + 1)) slot.lineComment more).2) := by
  have feed : (previous.lineComment && !(slice setting.text previous.tailEnd slot.begins).contains '\n') = false := by
    cases line : previous.lineComment with
    | false => rfl
    | true =>
      have found : '\n' ∈ slice setting.text previous.tailEnd slot.begins := reaches.feed line
      simp [found]
  rw [printEntries_behind all, feed, ← Text.slice_append setting.text reaches.stops begins]
  rfl

/-- An entry in a slot prints, before all others, with the comments above it. -/
theorem printEntries_opening {done rest : List Slot} {slot : Slot} {entry : NodeId}
    (all : setting.layout.slots = done ++ slot :: rest) (more : List (NodeId × Option Nat)) :
    doc.printEntries print setting true none false ((entry, some done.length) :: more) =
      (slice setting.text slot.begins slot.span.start ++ doc.printChild print entry setting.indent setting.buffer ++
        printTail setting.text (some slot) (setting.wantsComma more) ++
        (doc.printEntries print setting false (some done.length) slot.lineComment more).1,
      (doc.printEntries print setting false (some done.length) slot.lineComment more).2) := by
  have here : setting.layout.slots[done.length]? = some slot := by simp [all]
  rw [printEntries]
  simp only [if_true, Option.bind_some, here, Option.map_some, Option.getD_some, lead_eq, List.nil_append]
  rfl

/-- The first entry in the first slot prints without anything before it. -/
theorem printEntries_first {slot : Slot} {rest : List Slot} {entry : NodeId} (all : setting.layout.slots = slot :: rest)
    (bare : slot.lead = none) (more : List (NodeId × Option Nat)) :
    doc.printEntries print setting true none false ((entry, some 0) :: more) =
      (doc.printChild print entry setting.indent setting.buffer ++
        printTail setting.text (some slot) (setting.wantsComma more) ++
        (doc.printEntries print setting false (some 0) slot.lineComment more).1,
      (doc.printEntries print setting false (some 0) slot.lineComment more).2) := by
  have first : slot.begins = slot.span.start := by rw [Slot.begins, bare]; rfl
  have opening := @printEntries_opening doc print setting [] _ _ entry all more
  rw [first, Text.slice_self] at opening
  exact opening

/-- The entries after a slot, each in its own slot, print as the text behind with them exchanged. -/
theorem printEntries_later {rest done : List Slot} {previous : Slot} {entries : List NodeId}
    (all : setting.layout.slots = done ++ previous :: rest) (linked : Linked setting.text stop (previous :: rest))
    (same : entries.length = rest.length) :
    doc.printEntries print setting false (some done.length) previous.lineComment (numbered (done.length + 1) entries) =
      (splice setting.text (tailOf previous.tailEnd rest) previous.tailEnd
        (exchanges rest (doc.printedEntries print setting entries)), lineOf previous.lineComment rest) := by
  induction rest generalizing done previous entries with
  | nil =>
    rw [List.length_eq_zero_iff.mp same]
    exact Prod.ext (Text.slice_self _ _).symm rfl
  | cons slot more ih =>
    cases entries with
    | nil => cases same
    | cons entry others =>
      obtain ⟨reaches, _, later⟩ := linked
      have same' : others.length = more.length := Nat.succ.inj same
      have all' : setting.layout.slots = (done ++ [previous]) ++ slot :: more := by rw [all]; simp
      have tail : printTail setting.text (some slot) (setting.wantsComma _) = _ :=
        printTail_verbatim (wantsComma_eq all' later same' (n := done.length + 1 + 1))
      have step := ih all' later same'
      rw [List.length_append, List.length_singleton] at step
      have behind := later.2.2.ordered later.1.stops
        (by simpa [printedEntries] using same' : (doc.printedEntries print setting others).length = more.length)
      rw [numbered_cons, printEntries_step all reaches later.1.begins, step, tail, lineOf_cons, tailOf_cons]
      refine congrArg (fun printed => (printed, lineOf slot.lineComment more)) ?_
      rw [List.append_assoc, Text.slice_append_splice setting.text later.1.tail behind]
      rfl

/-- All entries, each in its own slot, print as the text from the first one on with them exchanged. -/
theorem printEntries_all {slot : Slot} {rest : List Slot} {entries : List NodeId}
    (all : setting.layout.slots = slot :: rest) (linked : Linked setting.text stop (slot :: rest))
    (bare : slot.lead = none) (same : entries.length = rest.length + 1) :
    doc.printEntries print setting true none false (numbered 0 entries) =
      (splice setting.text (tailOf slot.tailEnd rest) slot.span.start
        (exchanges (slot :: rest) (doc.printedEntries print setting entries)), lineOf slot.lineComment rest) := by
  cases entries with
  | nil => cases same
  | cons entry others =>
    have same' : others.length = rest.length := Nat.succ.inj same
    have all' : setting.layout.slots = [] ++ slot :: rest := all
    have tail : printTail setting.text (some slot) (setting.wantsComma _) = _ :=
      printTail_verbatim (wantsComma_eq all' linked same' (n := 0 + 1))
    have step : doc.printEntries print setting false (some 0) _ (numbered (0 + 1) others) = _ :=
      printEntries_later all' linked same'
    have behind := linked.2.2.ordered linked.1.stops
      (by simpa [printedEntries] using same' : (doc.printedEntries print setting others).length = rest.length)
    rw [numbered_cons, printEntries_first all bare, step, tail]
    refine congrArg (fun printed => (printed, lineOf slot.lineComment rest)) ?_
    rw [List.append_assoc, Text.slice_append_splice setting.text linked.1.tail behind]
    simp only [exchanges, printedEntries, List.map_cons, List.zip_cons_cons, splice, Text.slice_self, List.nil_append]

/-! ## Object literals -/

/-- An entry has the position of the slot that it ends at. -/
theorem slotPosition?_ends {slots : List Slot} {fuel : Nat} {entry first : NodeId}
    (settled : ∀ slot ∈ slots, (doc.node slot.id).replaces = none) (ends : doc.Ends entry first)
    (within : Within (fun id => (doc.node id).replaces.toList) fuel entry) :
    doc.slotPosition? slots fuel entry = slots.findIdx? (·.id == first) := by
  induction ends generalizing fuel with
  | @here id none =>
    cases fuel with
    | zero => exact within.elim
    | succ fuel =>
      rw [slotPosition?, none]
      cases slots.findIdx? (·.id == id) <;> rfl
  | @there id old first took rest ih =>
    cases fuel with
    | zero => exact within.elim
    | succ fuel =>
      have absent : slots.findIdx? (·.id == id) = none := by
        rw [List.findIdx?_eq_none_iff]
        intro slot member
        refine beq_eq_false_iff_ne.mpr fun same => ?_
        have none := settled slot member
        rw [same, took] at none
        cases none
      rw [slotPosition?, absent, took]
      exact ih (within old (by simp [took]))

theorem Sound.places_within (sound : doc.Sound) (id : NodeId) :
    Within (fun id => (doc.node id).replaces.toList) (doc.nodes.size + 1) id := by
  obtain ⟨age, falls⟩ := sound.aged
  have down : ∀ {id old}, old ∈ (doc.node id).replaces.toList → (doc.node id).replaces = some old := fun member => by
    simpa using member
  by_cases lt : id < doc.nodes.size
  · refine Within.mono (Nat.le_succ _) (within_size (fun a b => age b < age a) (fun _ => Nat.lt_irrefl _)
      (fun left right => Nat.lt_trans right left) (fun member => sound.takenLt (down member))
      (fun member => falls (down member)) lt)
  · intro old member
    have took := down member
    rw [node_beyond (Nat.le_of_not_lt lt)] at took
    cases took

theorem findIdx?_slot {done rest : List Slot} {slot : Slot} (distinct : ((done ++ slot :: rest).map Slot.id).Nodup) :
    (done ++ slot :: rest).findIdx? (·.id == slot.id) = some done.length := by
  rw [List.map_append, List.nodup_append] at distinct
  have absent : done.findIdx? (·.id == slot.id) = none := by
    rw [List.findIdx?_eq_none_iff]
    intro other member
    exact beq_eq_false_iff_ne.mpr (distinct.2.2 _ (List.mem_map_of_mem member) _ (by simp))
  rw [List.findIdx?_append, absent]
  simp [List.findIdx?_cons]

/-- Entries that end at the slots' own entries, in order, are at the positions in order. -/
theorem positions_eq (done rest : List Slot) {entries : List NodeId} (sound : doc.Sound)
    (distinct : ((done ++ rest).map Slot.id).Nodup)
    (settled : ∀ slot ∈ done ++ rest, (doc.node slot.id).replaces = none)
    (ends : List.Forall₂ doc.Ends entries (rest.map Slot.id)) :
    (entries.map fun entry => (entry, doc.slotPosition? (done ++ rest) (doc.nodes.size + 1) entry)) =
      numbered done.length entries := by
  induction rest generalizing done entries with
  | nil =>
    cases ends
    rfl
  | cons slot rest ih =>
    cases ends with
    | @cons entry _ others _ here later =>
      have all : done ++ slot :: rest = (done ++ [slot]) ++ rest := by simp
      rw [List.map_cons, numbered_cons,
        slotPosition?_ends settled here (sound.places_within entry), findIdx?_slot distinct]
      rw [all] at distinct settled ⊢
      rw [ih (done ++ [slot]) distinct settled later, List.length_append, List.length_singleton]

/-- The slots of a literal are those of children that it was parsed with. -/
theorem layout_first {x : NodeId} {span : Span} {slot : Slot} (member : slot ∈ (doc.layout x text span).slots) :
    slot.id ∈ (doc.node x).firstChildren := by
  have listed := List.mem_map_of_mem (f := Slot.id) member
  rw [layout, Layout.ofItems, slots_ids] at listed
  obtain ⟨item, inside, same⟩ := List.mem_map.mp listed
  obtain ⟨f, first, is⟩ := List.mem_filterMap.mp (List.mem_of_mem_filter (List.mem_of_mem_filter inside))
  obtain ⟨place, _, rfl⟩ := Option.map_eq_some_iff.mp is
  exact same ▸ first

/-- An entry has the position of the slot that it ends at, if there is one. -/
theorem Sound.position (sound : doc.Sound) {x entry last : NodeId} (ends : doc.Ends entry last) (text : List Char)
    (span : Span) :
    doc.slotPosition? (doc.layout x text span).slots (doc.nodes.size + 1) entry =
      (doc.layout x text span).slots.findIdx? (·.id == last) :=
  slotPosition?_ends (fun _ member => sound.firstTookNone (layout_first member)) ends (sound.places_within entry)

/-- The exchanges of a node's parts: where each was parsed and what stands there now. -/
def partExchanges (doc : Document) (print : ChildPrinter) (indent : List Char) (buffer : BufferId) (spans : List Span)
    (parts : List NodeId) : List Exchange :=
  spans.zip (parts.map fun part => doc.printChild print part indent buffer)

/-- How the entries of a changed object literal are set. -/
def entrySetting (doc : Document) (text : List Char) (buffer : BufferId) (layout : Layout) : Setting :=
  ⟨text, buffer, layout, layout.entryIndent text, (layout.before text).contains '\n',
    doc.newline.text ++ layout.entryIndent text⟩

theorem printObjectEntries_eq {layout : Layout} {entries : List NodeId} {buffer : BufferId} {printed : List Char × Bool}
    (is : doc.printEntries print (doc.entrySetting text buffer layout) true none false
      (entries.map fun entry => (entry, doc.slotPosition? layout.slots (doc.nodes.size + 1) entry)) = printed) :
    doc.printObjectEntries print text buffer layout (Text.lineIndent text layout.span.start) entries =
      slice text layout.span.start layout.openEnd ++ layout.before text ++ printed.1 ++
        (if printed.2 && !(layout.after text).contains '\n'
          then doc.newline.text ++ Text.lineIndent text layout.span.start ++ Text.trimStart (layout.after text)
          else layout.after text) ++ slice text layout.closeStart layout.span.stop := by
  simp only [printObjectEntries, slotOf_eq]
  exact is ▸ rfl

/-- A changed object literal whose entries are all in their places. -/
theorem printObjectEntries_splice {layout : Layout} {entries : List NodeId} {buffer : BufferId} (sound : doc.Sound)
    (covers : layout.Covers text) (some : layout.slots ≠ []) (distinct : (layout.slots.map Slot.id).Nodup)
    (settled : ∀ slot ∈ layout.slots, (doc.node slot.id).replaces = none)
    (ends : List.Forall₂ doc.Ends entries (layout.slots.map Slot.id)) :
    doc.printObjectEntries print text buffer layout (Text.lineIndent text layout.span.start) entries =
      splice text layout.span.stop layout.span.start
        (doc.partExchanges print (layout.entryIndent text) buffer (layout.slots.map Slot.span) entries) := by
  have positions : (entries.map fun entry => (entry, doc.slotPosition? layout.slots (doc.nodes.size + 1) entry)) =
      numbered 0 entries := positions_eq [] layout.slots sound distinct settled ends
  cases slots : layout.slots with
  | nil => exact absurd slots some
  | cons slot rest =>
    obtain ⟨opens, starts, linked, bare, closes⟩ := covers
    have length := ends.length_eq
    rw [slots] at length starts linked bare
    have bare := bare slot rfl
    have first : slot.begins = slot.span.start := by rw [Slot.begins, bare]; rfl
    have starts : layout.openEnd ≤ slot.span.start := first ▸ starts
    have before : layout.before text = slice text layout.openEnd slot.span.start := by
      simp [Layout.before, slots]
    have after : layout.after text = slice text (tailOf slot.tailEnd rest) layout.closeStart := by
      rw [← tailOf_cons layout.openEnd, Layout.after, slots]
      rfl
    -- Three stretches: up to the first entry, the entries, and from the last tail to the end.
    have body : doc.printEntries print (doc.entrySetting text buffer layout) true none false (numbered 0 entries) =
        (splice text (tailOf slot.tailEnd rest) slot.span.start
          (doc.partExchanges print (layout.entryIndent text) buffer ((slot :: rest).map Slot.span) entries),
          lineOf slot.lineComment rest) :=
      printEntries_all slots linked bare (by simpa using length)
    rw [← positions] at body
    rw [printObjectEntries_eq body]
    generalize layout.entryIndent text = indent
    obtain ⟨high, feeds⟩ := linked.last
    have feed : (lineOf slot.lineComment rest &&
        !(slice text (tailOf slot.tailEnd rest) layout.closeStart).contains '\n') = false := by
      cases line : lineOf slot.lineComment rest with
      | false => rfl
      | true => simp [feeds line]
    have inner : Ordered slot.span.start (tailOf slot.tailEnd rest)
        ((doc.partExchanges print indent buffer ((slot :: rest).map Slot.span) entries).map Prod.fst) := by
      rw [← tailOf_cons slot.span.start]
      refine linked.ordered (Nat.le_of_eq first.symm) ?_
      simpa using length
    have closing : Ordered (tailOf slot.tailEnd rest) layout.span.stop (([] : List Exchange).map Prod.fst) :=
      Nat.le_trans high closes
    have whole : Ordered slot.span.start layout.span.stop
        ((doc.partExchanges print indent buffer ((slot :: rest).map Slot.span) entries).map Prod.fst) := by
      simpa using inner.append closing
    simp only [before, after, feed, Bool.false_eq_true, if_false]
    rw [Text.slice_append text opens starts, List.append_assoc, List.append_assoc, Text.slice_append text high closes]
    have joined := Text.splice_append text inner closing
    rw [List.append_nil] at joined
    rw [← Text.slice_append_splice text (Nat.le_trans opens starts) whole, ← joined]
    rfl

/-- The entries that a node was parsed with. -/
def firstEntries (doc : Document) (id : NodeId) : List NodeId :=
  (doc.node id).firstChildren.filter fun c => (doc.role c).isEntry

/-- An object literal that neither gained nor lost entries: its entries are those it was parsed with, or have come after
    them, one by one. -/
def KeepsEntries (doc : Document) (id : NodeId) : Prop := List.Forall₂ doc.Ends (doc.entries id) (doc.firstEntries id)

/-- An exchange puts what a child prints as in the place of a first child. -/
def Exchanged (doc : Document) (print : ChildPrinter) (buffer : BufferId) (places : NodeId × NodeId) (exchange : Exchange) :
    Prop :=
  (doc.node places.1).origin = .parsed buffer exchange.1 ∧
    ∃ indent, exchange.2 = doc.printChild print places.2 indent buffer

/-- An exchange puts what a child prints as in the place of a first child, indented as the place asks for. -/
def ShownAt (doc : Document) (print : ChildPrinter) (buffer : BufferId) (indent : Span → List Char)
    (places : NodeId × NodeId) (exchange : Exchange) : Prop :=
  (doc.node places.1).origin = .parsed buffer exchange.1 ∧
    exchange.2 = doc.printChild print places.2 (indent exchange.1) buffer

theorem ShownAt.exchanged {buffer : BufferId} {indent : Span → List Char} {places : NodeId × NodeId} {exchange : Exchange}
    (shown : doc.ShownAt print buffer indent places exchange) : doc.Exchanged print buffer places exchange :=
  ⟨shown.1, _, shown.2⟩

/-- The items of nodes that are at the parts of an outline. -/
theorem items_of_places {buffer : BufferId} {firsts : List NodeId} {outline : Outline}
    (places : List.Forall₂ (doc.IsAt buffer) firsts outline) :
    ∃ items : List Item, (firsts.filterMap fun c =>
        (doc.node c).span?.map fun span => ({ id := c, kind := (doc.node c).kind, span } : Item)) = items ∧
      items.map Item.part = outline ∧ items.map Item.id = firsts ∧ ∀ item ∈ items, doc.IsAt buffer item.id item.part := by
  induction places with
  | nil => exact ⟨[], rfl, rfl, rfl, by simp⟩
  | @cons first part firsts outline place rest ih =>
    obtain ⟨items, found, parts, ids, each⟩ := ih
    have span : (doc.node first).span? = some part.2 := by simp [Node.span?, place.2]
    refine ⟨⟨first, (doc.node first).kind, part.2⟩ :: items, ?_, ?_, ?_, ?_⟩
    · simp only [List.filterMap_cons, span, Option.map_some, found]
    · rw [List.map_cons, parts]
      exact congrArg (· :: outline) (Prod.ext place.1 rfl)
    · rw [List.map_cons, ids]
    · intro item member
      rcases List.mem_cons.mp member with rfl | later
      · exact ⟨rfl, place.2⟩
      · exact each item later

section
variable {id : NodeId} {buffer : BufferId} {span : Span} {outline : Outline}
  (places : List.Forall₂ (doc.IsAt buffer) (doc.node id).firstChildren outline)
include places

/-- The items that a node was parsed with lie at the parts of its outline. -/
theorem parsedItems_of_places : (doc.parsedItems id).map Item.part = outline ∧
    (doc.parsedItems id).map Item.id = (doc.node id).firstChildren ∧
      ∀ item ∈ doc.parsedItems id, doc.IsAt buffer item.id item.part := by
  obtain ⟨_, rfl, found⟩ := items_of_places places
  exact found

/-- Children that lie in order between two braces frame their literal. -/
theorem framed_of_places (ordered : Ordered span.start span.stop (outline.map Prod.snd)) (braces : outline.isBraced = true) :
    ∃ opening inner closing, Layout.Framed (doc.buffer buffer) span (doc.parsedItems id) opening inner closing ∧
      Outline.isBrace "\x7b" opening.part = true ∧ Outline.isBrace "\x7d" closing.part = true := by
  obtain ⟨rfl, _, _⟩ := parsedItems_of_places places
  exact Layout.ofItems_framed (by simpa [Item.part, Function.comp_def] using ordered) braces

/-- A node with children is no keyword. -/
theorem braced_of_places {kind : String} (some : (doc.node id).firstChildren ≠ [])
    (shape : Outline.IsKeyword (doc.buffer buffer) kind span outline ∨ outline.isBraced = true) : outline.isBraced = true :=
  shape.resolve_left fun keyword => some (List.forall₂_nil_right_iff.mp (keyword.1 ▸ places))

/-- The slots of a literal between two braces are the entries that it was parsed with. -/
theorem layout_entries {opening closing : Item} {inner : List Item}
    (framed : Layout.Framed (doc.buffer buffer) span (doc.parsedItems id) opening inner closing) :
    (doc.layout id (doc.buffer buffer) span).slots.map Slot.id = doc.firstEntries id ∧
      ∀ slot ∈ (doc.layout id (doc.buffer buffer) span).slots, (doc.node slot.id).origin = .parsed buffer slot.span := by
  obtain ⟨_, ids, each⟩ := parsedItems_of_places places
  have slots := framed.entries
  rw [layout]
  have firsts : ((doc.parsedItems id).filter Item.isEntry).map Item.id = doc.firstEntries id := by
    rw [firstEntries, ← ids, List.filter_map]
    refine congrArg _ (List.filter_congr fun item member => ?_)
    rw [Function.comp_apply, role, Node.role, (each item member).1]
    rfl
  refine ⟨?_, fun slot member => ?_⟩
  · rw [← firsts]
    simpa [Function.comp_def] using congrArg (List.map Prod.fst) slots
  · have listed : (slot.id, slot.span) ∈ ((doc.parsedItems id).filter Item.isEntry).map fun item => (item.id, item.span) :=
      slots ▸ List.mem_map_of_mem member
    obtain ⟨item, among, same⟩ := List.mem_map.mp listed
    have place := (each item (List.mem_of_mem_filter among)).2
    rw [← (Prod.mk.inj same).1, ← (Prod.mk.inj same).2]
    exact place

/-- An object literal is braced, and its slots are the entries that it was parsed with. -/
theorem layout_slots (object : doc.role id = .object) (fits : outline.Fits (doc.buffer buffer) (doc.node id).kind span) :
    ((doc.node id).firstChildren ≠ [] →
      ∃ opening inner closing, Layout.Braced (doc.buffer buffer) span (doc.parsedItems id) opening inner closing) ∧
    (doc.layout id (doc.buffer buffer) span).slots.map Slot.id = doc.firstEntries id ∧
    ∀ slot ∈ (doc.layout id (doc.buffer buffer) span).slots, (doc.node slot.id).origin = .parsed buffer slot.span := by
  obtain ⟨parts, ids, _⟩ := parsedItems_of_places places
  rw [← parts] at fits
  have braced : (doc.node id).firstChildren ≠ [] →
      ∃ opening inner closing, Layout.Braced (doc.buffer buffer) span (doc.parsedItems id) opening inner closing :=
    fun some => Layout.ofItems_braced object (fun none => some (by rw [← ids, none, List.map_nil])) fits
  refine ⟨braced, ?_⟩
  by_cases bare : (doc.node id).firstChildren = []
  · -- The keyword has no children and so no slots.
    have none : doc.parsedItems id = [] := List.map_eq_nil_iff.mp (ids.trans bare)
    rw [layout, none, firstEntries, bare]
    exact ⟨rfl, nofun⟩
  · obtain ⟨_, _, _, framed⟩ := braced bare
    exact layout_entries places framed.toFramed

end

theorem shownAt_of_slots {buffer : BufferId} {slots : List Slot} (entries : List NodeId) (indent : List Char)
    (each : ∀ slot ∈ slots, (doc.node slot.id).origin = .parsed buffer slot.span) :
    List.Forall₂ (doc.ShownAt print buffer fun _ => indent) ((slots.map Slot.id).zip entries)
      (doc.partExchanges print indent buffer (slots.map Slot.span) entries) := by
  induction slots generalizing entries with
  | nil => exact .nil
  | cons slot rest ih =>
    cases entries with
    | nil => exact .nil
    | cons entry others =>
      exact .cons ⟨each slot (by simp), rfl⟩ (ih others fun slot member => each slot (List.mem_cons_of_mem _ member))

/-- A changed object literal that neither gained nor lost entries is its text with the entries exchanged, each on the
    indentation of the entries. -/
theorem printObject_shown {id : NodeId} {buffer : BufferId} {span : Span} {outline : Outline} (sound : doc.Sound)
    (object : doc.role id = .object) (places : List.Forall₂ (doc.IsAt buffer) (doc.node id).firstChildren outline)
    (fits : outline.Fits (doc.buffer buffer) (doc.node id).kind span) (keeps : doc.KeepsEntries id) :
    ∃ exchanges, doc.printObject print id buffer span =
        splice (doc.buffer buffer) span.stop span.start exchanges ∧
      Ordered span.start span.stop (exchanges.map Prod.fst) ∧
      List.Forall₂ (doc.ShownAt print buffer fun _ =>
          (doc.layout id (doc.buffer buffer) span).entryIndent (doc.buffer buffer))
        ((doc.firstEntries id).zip (doc.entries id)) exchanges := by
  obtain ⟨braced, slotIds, each⟩ := layout_slots places object fits
  obtain ⟨laid, laidIs⟩ : ∃ laid, laid = doc.layout id (doc.buffer buffer) span := ⟨_, rfl⟩
  have whole : laid.span = span := laidIs ▸ rfl
  -- With no slots there are no entries; otherwise they are all in their slots.
  by_cases empty : laid.slots = []
  · have noFirsts : doc.firstEntries id = [] := by rw [← slotIds, ← laidIs, empty]; rfl
    have noEntries : doc.entries id = [] := List.length_eq_zero_iff.mp (keeps.length_eq.trans (by simp [noFirsts]))
    have none : ((doc.children id).filter fun c => (doc.role c).isEntry) = [] := noEntries
    refine ⟨[], ?_, fits.1.le, by rw [noFirsts]; exact .nil⟩
    unfold printObject
    simp only [← laidIs]
    rw [if_pos (by simp [empty]), if_pos (by simp [none])]
    rfl
  rw [← laidIs] at slotIds each ⊢
  have some : doc.firstEntries id ≠ [] := by
    rw [← slotIds]
    exact mt List.map_eq_nil_iff.mp empty
  obtain ⟨_, _, _, braced⟩ := braced fun none => some (by rw [firstEntries, none, List.filter_nil])
  have covers := braced.covers
  change (doc.layout id (doc.buffer buffer) span).Covers _ at covers
  rw [← laidIs] at covers
  have firstNodup : (doc.firstEntries id).Nodup := (sound.firstNodup id).filter _
  have settled : ∀ slot ∈ laid.slots, (doc.node slot.id).replaces = none := by
    intro slot member
    have listed : slot.id ∈ doc.firstEntries id := slotIds ▸ List.mem_map_of_mem member
    exact sound.firstTookNone (List.mem_of_mem_filter listed)
  have count : (doc.entries id).length = (laid.slots.map Slot.span).length := by
    rw [keeps.length_eq, ← slotIds, List.length_map, List.length_map]
  have printed : doc.printObject print id buffer span =
      splice (doc.buffer buffer) span.stop span.start
        (doc.partExchanges print (laid.entryIndent (doc.buffer buffer)) buffer (laid.slots.map Slot.span)
          (doc.entries id)) := by
    have more : doc.entries id ≠ [] := by
      intro none
      have length := keeps.length_eq
      rw [none, List.length_nil] at length
      exact some (List.length_eq_zero_iff.mp length.symm)
    have some : ¬ ((doc.children id).filter fun c => (doc.role c).isEntry).isEmpty = true := fun none =>
      more (List.isEmpty_iff.mp none)
    unfold printObject
    simp only [← laidIs]
    rw [if_neg (by simpa using empty), if_neg some, ← whole]
    exact printObjectEntries_splice sound covers empty (slotIds ▸ firstNodup) settled (slotIds ▸ keeps)
  refine ⟨_, printed, ?_, ?_⟩
  · rw [partExchanges, List.map_fst_zip (Nat.le_of_eq (count.symm.trans (List.length_map _).symm))]
    exact whole ▸ covers.ordered
  · rw [← slotIds]
    exact shownAt_of_slots _ _ each

/-- A changed object literal that neither gained nor lost entries is its text with the entries exchanged. -/
theorem printObject_splice {id : NodeId} {buffer : BufferId} {span : Span} {outline : Outline} (sound : doc.Sound)
    (object : doc.role id = .object) (places : List.Forall₂ (doc.IsAt buffer) (doc.node id).firstChildren outline)
    (fits : outline.Fits (doc.buffer buffer) (doc.node id).kind span) (keeps : doc.KeepsEntries id) :
    ∃ exchanges, doc.printObject print id buffer span =
        splice (doc.buffer buffer) span.stop span.start exchanges ∧
      Ordered span.start span.stop (exchanges.map Prod.fst) ∧
      List.Forall₂ (doc.Exchanged print buffer) ((doc.firstEntries id).zip (doc.entries id)) exchanges := by
  obtain ⟨exchanges, is, ordered, shown⟩ := @printObject_shown doc print _ _ _ _ sound object places fits keeps
  exact ⟨exchanges, is, ordered, shown.imp fun _ _ => ShownAt.exchanged⟩

/-- A changed node other than an object literal, with as many children as it was parsed with, is its text with the
    children exchanged, each on the indentation of the line that its place starts on. -/
theorem printPlaces_shown {buffer : BufferId} {firsts children : List NodeId} {outline : Outline} {start : Nat}
    (places : List.Forall₂ (doc.IsAt buffer) firsts outline) (count : children.length = firsts.length)
    (ordered : Ordered start stop (outline.map Prod.snd)) :
    ∃ exchanges, doc.printPlaces print buffer stop start (firsts.zip children) =
        splice (doc.buffer buffer) stop start exchanges ∧
      Ordered start stop (exchanges.map Prod.fst) ∧
      List.Forall₂ (doc.ShownAt print buffer fun place => Text.lineIndent (doc.buffer buffer) place.start)
        (firsts.zip children) exchanges := by
  induction places generalizing children start with
  | nil => exact ⟨[], rfl, ordered, .nil⟩
  | @cons first part firsts outline place rest ih =>
    cases children with
    | nil => cases count
    | cons child others =>
      obtain ⟨low, inside, after⟩ := ordered
      obtain ⟨exchanges, is, ordered', each⟩ := ih (Nat.succ.inj count) after
      have span : (doc.node first).span? = some part.2 := by simp [Node.span?, place.2]
      refine ⟨(part.2, doc.printChild print child (Text.lineIndent (doc.buffer buffer) part.2.start) buffer) :: exchanges,
        ?_, ⟨low, inside, ordered'⟩, .cons ⟨place.2, rfl⟩ each⟩
      simp only [List.zip_cons_cons, printPlaces, span, splice, is]

/-- A changed node other than an object literal, with as many children as it was parsed with, is its text with the
    children exchanged. -/
theorem printPlaces_splice {buffer : BufferId} {firsts children : List NodeId} {outline : Outline} {start : Nat}
    (places : List.Forall₂ (doc.IsAt buffer) firsts outline) (count : children.length = firsts.length)
    (ordered : Ordered start stop (outline.map Prod.snd)) :
    ∃ exchanges, doc.printPlaces print buffer stop start (firsts.zip children) =
        splice (doc.buffer buffer) stop start exchanges ∧
      Ordered start stop (exchanges.map Prod.fst) ∧
      List.Forall₂ (doc.Exchanged print buffer) (firsts.zip children) exchanges := by
  obtain ⟨exchanges, is, ordered, shown⟩ := @printPlaces_shown _ doc print _ _ _ _ _ places count ordered
  exact ⟨exchanges, is, ordered, shown.imp fun _ _ => ShownAt.exchanged⟩

end Document

end StoreModels
