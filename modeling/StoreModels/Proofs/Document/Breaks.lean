import StoreModels.Proofs.Document.Render
import StoreModels.Proofs.Document.Moves
import StoreModels.Proofs.Text.Breaks

/-!
Line breaks in printed documents. A file whose line feeds all stand behind carriage returns is cut by the printer at the
ends of its nodes alone, which no such pair lies across; what comes from a snippet is moved over with the line break of
the file; and all breaks that the printer makes are written the same way. So the text of every node of the file, and of
every node that an edit made, has its line feeds behind carriage returns again.
-/
namespace StoreModels
open Syntax (Span Role)
open Text (Paired Uncut slice)

variable {text : List Char} {span : Span}

/-! ## Positions of the layout -/

/-- Neither end of a part lies between a carriage return and a line feed. -/
def Syntax.Span.Uncut (span : Span) (text : List Char) : Prop :=
  Text.Uncut text span.start ∧ Text.Uncut text span.stop

instance (span : Span) (text : List Char) : Decidable (span.Uncut text) := inferInstanceAs (Decidable (_ ∧ _))

/-- What has been shared out between two entries starts and ends between no carriage return and line feed. -/
structure Closing.Uncut (text : List Char) (closing : Closing) : Prop where
  comma : ∀ span ∈ closing.comma, span.Uncut text
  tailEnd : Text.Uncut text closing.tailEnd
  lead : ∀ place ∈ closing.lead, Text.Uncut text place

theorem closeGap_uncut {entry : Span} {next : Option Nat} {passed : Bool} {closing : Closing} {items : List Item}
    (uncut : closing.Uncut text) (each : ∀ item ∈ items, item.span.Uncut text) :
    (closeGap text entry next passed closing items).Uncut text := by
  induction items generalizing passed closing with
  | nil => exact uncut
  | cons item rest ih =>
    obtain ⟨starts, stops⟩ := each item (by simp)
    have later : ∀ other ∈ rest, other.span.Uncut text := fun other member => each other (by simp [member])
    by_cases comma : (item.isComma && !passed) = true
    · show Closing.Uncut text (if _ then _ else _)
      rw [if_pos comma]
      refine ih ⟨?_, ?_, uncut.lead⟩ later
      · intro span is
        cases is
        exact ⟨starts, stops⟩
      · rcases Nat.le_total closing.tailEnd item.span.stop with le | le
        · rw [Nat.max_eq_right le]
          exact stops
        · rw [Nat.max_eq_left le]
          exact uncut.tailEnd
    · by_cases comment : item.isComment = true
      · obtain ⟨joins, _, step⟩ := closeGap_comment comma comment
        rw [step]
        refine ih ?_ later
        split
        · exact uncut
        · cases joins with
          | true => exact ⟨uncut.comma, stops, uncut.lead⟩
          | false =>
            refine ⟨uncut.comma, uncut.tailEnd, fun place is => ?_⟩
            cases is
            exact starts
      · show Closing.Uncut text (if _ then _ else if _ then _ else _)
        rw [if_neg comma, if_neg comment]
        exact ih uncut later

/-- An entry and what goes with it start and end between no carriage return and line feed. -/
structure Slot.Uncut (text : List Char) (slot : Slot) : Prop where
  span : slot.span.Uncut text
  lead : ∀ place ∈ slot.lead, Text.Uncut text place
  comma : ∀ span ∈ slot.comma, span.Uncut text
  tailEnd : Text.Uncut text slot.tailEnd

theorem slotsOf_uncut {lead : Option Nat} {groups : List (Item × List Item)}
    (above : ∀ place ∈ lead, Text.Uncut text place) (each : ∀ item ∈ flatten groups, item.span.Uncut text) :
    ∀ slot ∈ slotsOf text lead groups, slot.Uncut text := by
  induction groups generalizing lead with
  | nil => exact fun slot member => by cases member
  | cons group rest ih =>
    obtain ⟨entry, gap⟩ := group
    have here : entry.span.Uncut text := each entry (by simp [flatten])
    have closing : (closeGap text entry.span (rest.head?.map (·.1.span.start)) false
        ⟨none, entry.span.stop, false, none⟩ gap).Uncut text :=
      closeGap_uncut ⟨by simp, here.2, by simp⟩ fun item member => each item (by simp [flatten, member])
    intro slot member
    rcases List.mem_cons.mp member with rfl | later
    · exact ⟨here, above, closing.comma, closing.tailEnd⟩
    · exact ih closing.lead (fun item member => each item (List.mem_append_right _ member)) slot later

/-- The parts of a layout start between no carriage return and line feed. -/
structure Layout.Uncut (text : List Char) (layout : Layout) : Prop where
  start : Text.Uncut text layout.span.start
  openEnd : Text.Uncut text layout.openEnd
  closeStart : Text.Uncut text layout.closeStart
  slots : ∀ slot ∈ layout.slots, slot.Uncut text

theorem mem_of_mem_groups {items : List Item} {item : Item} (member : item ∈ flatten (groupItems items).2) :
    item ∈ items := by
  rw [(groupItems_spec items).1]
  exact List.mem_append_right _ member

theorem Layout.ofItems_uncut {items : List Item} (some : items ≠ []) (whole : span.Uncut text)
    (each : ∀ item ∈ items, item.span.Uncut text) : (Layout.ofItems text span items).Uncut text := by
  obtain ⟨head, headIs⟩ := Option.isSome_iff_exists.mp (List.isSome_head?.mpr some)
  have lastIs := List.getLast?_eq_some_getLast some
  refine ⟨whole.1, ?_, ?_, ?_⟩
  · simp only [Layout.ofItems, headIs]
    exact (each head (List.mem_of_head? headIs)).2
  · simp only [Layout.ofItems, lastIs]
    exact (each _ (List.getLast_mem some)).1
  · refine slotsOf_uncut (by simp) fun item member => each item ?_
    exact List.mem_of_mem_filter (mem_of_mem_groups member)

/-- A keyword is cut nowhere. -/
theorem Layout.ofItems_keyword {kind : String} {outline : Syntax.Outline} (object : Role.ofKind kind = .object)
    (whole : span.Uncut text) (keyword : outline.IsKeyword text kind span) : (Layout.ofItems text span []).Uncut text := by
  have none : '\n' ∉ slice text span.start span.stop := by
    rw [keyword.2, Syntax.Outline.kind_of_object object]
    decide
  have wide := keyword.wide object
  exact ⟨whole.1, Text.uncut_inside none (Nat.le_succ _) wide, Text.uncut_inside none (by show _ ≤ span.stop - 1; omega)
    (by show span.stop - 1 < _; omega), by rintro slot ⟨⟩⟩

namespace Layout.Uncut
variable {layout : Layout}

theorem before (uncut : layout.Uncut text) (paired : Paired text) : Paired (layout.before text) :=
  paired.slice uncut.openEnd

theorem after (uncut : layout.Uncut text) (paired : Paired text) : Paired (layout.after text) := by
  refine paired.slice ?_
  cases last : layout.slots.getLast? with
  | none => exact uncut.openEnd
  | some slot => exact (uncut.slots slot (List.mem_of_getLast? last)).tailEnd

end Layout.Uncut

/-! ## Printed parts -/

theorem joinWith_paired {separator : List Char} {parts : List (List Char)} (between : Paired separator)
    (each : ∀ part ∈ parts, Paired part) : Paired (joinWith separator parts) := by
  induction parts with
  | nil => exact Text.paired_nil
  | cons part rest ih =>
    cases rest with
    | nil => exact each part (by simp)
    | cons second more =>
      exact ((each part (by simp)).append between).append (ih fun other member => each other (by simp [member]))

namespace Document

theorem printTail_paired {slot : Option Slot} (paired : Paired text) (uncut : ∀ s ∈ slot, s.Uncut text)
    (wantsComma : Bool) : Paired (printTail text slot wantsComma) := by
  cases slot with
  | none => cases wantsComma <;> exact .of_not_mem (by simp [printTail])
  | some slot =>
    have whole := uncut slot rfl
    have tail : Paired (slice text slot.span.stop slot.tailEnd) := paired.slice whole.span.2
    cases comma : slot.comma with
    | none =>
      cases wantsComma with
      | false => simpa only [printTail, comma] using tail
      | true => simpa only [printTail, comma] using tail.cons (by decide : ',' ≠ '\n')
    | some part =>
      cases wantsComma with
      | false =>
        simp only [printTail, comma]
        exact (paired.slice whole.span.2).append (paired.slice (whole.comma part comma).2)
      | true => simpa only [printTail, comma] using tail

namespace Setting
variable {setting : Setting}

theorem gap_paired (paired : Paired setting.text) (uncut : setting.layout.Uncut setting.text)
    (line : Paired setting.lineBreak) (previous position : Option Nat) : Paired (setting.gap previous position) := by
  have gaps : ∀ n, Paired (setting.layout.gapBefore setting.text n) := by
    intro n
    unfold Layout.gapBefore
    split
    next before _ found _ => exact paired.slice (uncut.slots before (List.mem_of_getElem? found)).tailEnd
    · exact Text.paired_nil
  have fallback : Paired (if setting.multiline then setting.lineBreak else [' ']) := by
    split
    · exact line
    · exact .of_not_mem (by decide)
  have behind : Paired (setting.gap previous none) := by
    cases previous with
    | none => exact fallback
    | some p =>
      simp only [Setting.gap]
      split
      · exact gaps _
      · exact fallback
  cases position with
  | none => exact behind
  | some q =>
    show Paired (if 0 < q then _ else setting.gap previous none)
    split
    · exact gaps _
    · exact behind

theorem lead_paired (paired : Paired setting.text) {slot : Option Slot} (uncut : ∀ s ∈ slot, s.Uncut setting.text) :
    Paired (setting.lead slot) := by
  unfold Setting.lead
  split
  next => exact paired.slice ((uncut _ rfl).lead _ rfl)
  · exact Text.paired_nil

end Setting

variable {doc : Document} {print : ChildPrinter} {id : NodeId} {base indent : List Char}

/-- Where a node comes from, its part of the file starts and ends between no carriage return and line feed; what edits
    write has no line feed. -/
def originUncut (text : List Char) : Origin → Prop
  | .parsed 0 span => span.Uncut text
  | .parsed (_ + 1) _ => True
  | .written text => ∀ leaf ∈ text, '\n' ∉ leaf

/-- A document that keeps the longer line break. -/
structure Returning (doc : Document) : Prop where
  newline : doc.newline = .crlf
  indent : '\n' ∉ doc.indentUnit
  source : Paired doc.source
  origin : ∀ id, originUncut doc.source (doc.node id).origin
  shaped : doc.Shaped

/-- A node that is no part of a snippet is printed with its line feeds behind carriage returns. -/
def Returns (doc : Document) (print : ChildPrinter) (id : NodeId) : Prop :=
  (doc.node id).buffer?.getD 0 = 0 → ∀ base, '\n' ∉ base → Paired (print id base 0)

namespace Returning
variable (returning : doc.Returning)
include returning

theorem line (none : '\n' ∉ indent) : Paired (doc.newline.text ++ indent) := by
  rw [returning.newline]
  exact Paired.break none

theorem printChild (returns : doc.Returns print id) (none : '\n' ∉ base) :
    Paired (doc.printChild print id base 0) := by
  unfold Document.printChild
  cases origin : (doc.node id).buffer? with
  | none => exact returns (by rw [origin]; rfl) base none
  | some buffer =>
    by_cases here : buffer = 0
    · simp only [if_pos here]
      exact returns (by rw [origin, here]; rfl) base none
    · simp only [if_neg here, returning.newline]
      exact Text.paired_reindent _ none

theorem printLines {entries : List NodeId} (each : ∀ e ∈ entries, doc.Returns print e) (none : '\n' ∉ indent) :
    Paired (doc.printLines print entries indent 0) := by
  have line := returning.line none
  refine line.append (joinWith_paired (line.cons (by decide)) fun part member => ?_)
  obtain ⟨entry, listed, rfl⟩ := List.mem_map.mp member
  exact returning.printChild (each entry listed) none

/-- A line of its own for what closes a literal. -/
theorem closing {closing : List Char} (none : '\n' ∉ base) (ends : Paired closing) :
    Paired (doc.newline.text ++ base ++ closing) :=
  (returning.line none).append ends

theorem printWritten (each : ∀ c ∈ doc.children id, doc.Returns print c) (none : '\n' ∉ base) :
    Paired (doc.printWritten print (doc.node id) base 0) := by
  have child : ∀ c ∈ (doc.node id).children, Paired (doc.printChild print c base 0) := fun c member =>
    returning.printChild (each c member) none
  unfold Document.printWritten
  split
  · split
    · exact .of_not_mem (by decide)
    · have inner : '\n' ∉ base ++ doc.indentUnit := fun member =>
        (List.mem_append.mp member).elim none returning.indent
      have lines := returning.printLines each inner
      have ends : Paired (doc.newline.text ++ base ++ ['}']) := returning.closing none (.of_not_mem (by decide))
      simp only [List.append_assoc, List.cons_append] at ends ⊢
      exact .cons (by decide) (lines.append ends)
  · refine joinWith_paired (.of_not_mem (by decide)) fun part member => ?_
    obtain ⟨c, listed, rfl⟩ := List.mem_map.mp member
    exact child c listed
  · exact Paired.flatMap child

/-- The children that a node of the file was parsed with are cut nowhere between a carriage return and a line feed. -/
theorem first_uncut {span : Span} (parsed : (doc.node id).origin = .parsed 0 span) {f : NodeId}
    (member : f ∈ (doc.node id).firstChildren) {part : Span} (place : (doc.node f).span? = some part) :
    part.Uncut doc.source := by
  obtain ⟨_, places, _⟩ := returning.shaped.laid parsed
  obtain ⟨_, _, _, origin⟩ := forall₂_mem_left places member
  have uncut := returning.origin f
  simp only [Node.span?, origin, Option.some.injEq] at place
  rw [origin] at uncut
  exact place ▸ uncut

theorem printPlaces {span : Span} (parsed : (doc.node id).origin = .parsed 0 span) {stop start : Nat}
    {places : List (NodeId × NodeId)} (firsts : ∀ place ∈ places, place.1 ∈ (doc.node id).firstChildren)
    (each : ∀ place ∈ places, doc.Returns print place.2) (starts : Uncut doc.source start) :
    Paired (doc.printPlaces print 0 stop start places) := by
  induction places generalizing start with
  | nil => exact returning.source.slice starts
  | cons place rest ih =>
    obtain ⟨first, child⟩ := place
    have behind : ∀ start, Uncut doc.source start → Paired (doc.printPlaces print 0 stop start rest) := fun start =>
      ih (fun other member => firsts other (List.mem_cons_of_mem _ member))
        fun other member => each other (List.mem_cons_of_mem _ member)
    have here : first ∈ (doc.node id).firstChildren := firsts _ List.mem_cons_self
    simp only [Document.printPlaces]
    split
    · exact behind start starts
    next part found =>
      have child := returning.printChild (each _ List.mem_cons_self)
        (Text.not_mem_lineIndent (doc.buffer 0) part.start)
      have part := returning.first_uncut parsed here found
      exact ((returning.source.slice starts).append child).append (behind _ part.2)

theorem printParts {span : Span} (parsed : (doc.node id).origin = .parsed 0 span)
    (each : ∀ c ∈ doc.children id, doc.Returns print c) : Paired (doc.printParts print (doc.node id) 0 span) := by
  have uncut := returning.origin id
  rw [parsed] at uncut
  unfold Document.printParts
  split
  · refine returning.printPlaces parsed (fun place member => ?_) (fun place member => ?_) uncut.1
    · exact (List.of_mem_zip member).1
    · exact each _ (List.of_mem_zip member).2
  · exact Paired.flatMap fun c member => returning.printChild (each c member) (Text.not_mem_lineIndent _ _)

theorem printExpanded {entries : List NodeId} {inner : List Char} (each : ∀ e ∈ entries, doc.Returns print e)
    (kept : Paired inner) (none : '\n' ∉ base) : Paired (doc.printExpanded print entries inner base 0) := by
  have comments : Paired (if (Text.trim (Text.trimEnd inner)).isEmpty then [] else Text.trimEnd inner) := by
    split
    · exact Text.paired_nil
    · exact kept.trimEnd
  have shift : '\n' ∉ (if (Text.trimEnd inner).contains '\n' && !(Text.trim (Text.trimEnd inner)).isEmpty then
      lastIndent (Text.trimEnd inner) else base ++ doc.indentUnit) := by
    split
    · exact Text.not_mem_indent _
    · exact fun member => (List.mem_append.mp member).elim none returning.indent
  have lines := returning.printLines each shift
  have ends : Paired (doc.newline.text ++ base ++ ['}']) := returning.closing none (.of_not_mem (by decide))
  unfold Document.printExpanded
  simp only [List.append_assoc, List.cons_append] at ends ⊢
  exact .cons (by decide) (comments.append (lines.append ends))

theorem printEmptied {opening before after closing : List Char} (opens : Paired opening) (above : Paired before)
    (below : Paired after) (closes : Paired closing) (none : '\n' ∉ base) :
    Paired (doc.printEmptied opening before after base closing) := by
  have kept := above.trimEnd.append below.trimEnd
  unfold Document.printEmptied
  simp only
  split
  · exact .of_not_mem (by decide)
  · refine Paired.append (Paired.append (opens.append kept) ?_) closes
    split
    · exact returning.line none
    · exact .of_not_mem (by decide)

theorem printEntries {setting : Setting} (text : setting.text = doc.source) (buffer : setting.buffer = 0)
    (uncut : setting.layout.Uncut doc.source) (line : Paired setting.lineBreak) (none : '\n' ∉ setting.indent)
    {isFirst lineComment : Bool} {previous : Option Nat} {entries : List (NodeId × Option Nat)}
    (each : ∀ e ∈ entries, doc.Returns print e.1) :
    Paired (doc.printEntries print setting isFirst previous lineComment entries).1 := by
  have source : Paired setting.text := text ▸ returning.source
  rw [← text] at uncut
  induction entries generalizing isFirst previous lineComment with
  | nil => exact Text.paired_nil
  | cons entry rest ih =>
    obtain ⟨entry, position⟩ := entry
    have slot : ∀ s ∈ position.bind fun q => setting.layout.slots[q]?, s.Uncut setting.text := fun s is => by
      obtain ⟨q, _, found⟩ := Option.bind_eq_some_iff.mp is
      exact uncut.slots s (List.mem_of_getElem? found)
    have gap : Paired (if isFirst then [] else
        if lineComment && !(setting.gap previous position).contains '\n' then setting.lineBreak
        else setting.gap previous position) := by
      split
      · exact Text.paired_nil
      · split
        · exact line
        · exact setting.gap_paired source uncut line previous position
    have child : Paired (doc.printChild print entry setting.indent setting.buffer) := by
      rw [buffer]
      exact returning.printChild (each _ List.mem_cons_self) none
    simp only [Document.printEntries]
    refine Paired.append (Paired.append ((gap.append (setting.lead_paired source slot)).append child) ?_) ?_
    · exact printTail_paired source slot _
    · exact ih fun other member => each other (List.mem_cons_of_mem _ member)

theorem printObjectEntries {layout : Layout} (uncut : layout.Uncut doc.source) {entries : List NodeId}
    (each : ∀ e ∈ entries, doc.Returns print e) (none : '\n' ∉ base) :
    Paired (doc.printObjectEntries print doc.source 0 layout base entries) := by
  have source := returning.source
  have before := uncut.before source
  have after := uncut.after source
  simp only [Document.printObjectEntries, slotOf_eq]
  generalize indentIs : (if (layout.before doc.source).contains '\n' then lastIndent (layout.before doc.source) else base) =
    indent
  have shift : '\n' ∉ indent := by
    rw [← indentIs]
    split
    · exact Text.not_mem_indent _
    · exact none
  have body : Paired (doc.printEntries print ⟨doc.source, 0, layout, indent, (layout.before doc.source).contains '\n',
      doc.newline.text ++ indent⟩ true .none false
      (entries.map fun entry => (entry, doc.slotPosition? layout.slots (doc.nodes.size + 1) entry))).1 := by
    refine returning.printEntries rfl rfl uncut (returning.line shift) shift fun e member => ?_
    obtain ⟨entry, listed, rfl⟩ := List.mem_map.mp member
    exact each entry listed
  refine Paired.append (Paired.append (((source.slice uncut.start).append before).append body) ?_)
    (source.slice uncut.closeStart)
  split
  · exact returning.closing none after.trimStart
  · exact after

theorem layout {span : Span} (parsed : (doc.node id).origin = .parsed 0 span) (object : doc.role id = .object) :
    (doc.layout id doc.source span).Uncut doc.source := by
  obtain ⟨outline, places, fits⟩ := returning.shaped.laid parsed
  have uncut := returning.origin id
  rw [parsed] at uncut
  rcases fits.2 object with keyword | braces
  · rw [keyword.1] at places
    have none : doc.parsedItems id = [] := by rw [parsedItems, List.forall₂_nil_right_iff.mp places, List.filterMap_nil]
    rw [Document.layout, none]
    exact Layout.ofItems_keyword object uncut keyword
  refine Layout.ofItems_uncut (fun empty => ?_) uncut fun item member => ?_
  · -- An object literal was parsed with its braces at least.
    obtain ⟨opening, _, _, is, _⟩ := Syntax.Outline.isObject_split braces
    rw [is] at places
    obtain ⟨first, _, ⟨_, origin⟩, _, firsts⟩ := List.forall₂_cons_right_iff.mp places
    simp [parsedItems, firsts, Node.span?, origin] at empty
  · obtain ⟨f, listed, is⟩ := List.mem_filterMap.mp member
    obtain ⟨part, found, rfl⟩ := Option.map_eq_some_iff.mp is
    exact returning.first_uncut parsed listed found

theorem printObject {span : Span} (parsed : (doc.node id).origin = .parsed 0 span) (object : doc.role id = .object)
    (each : ∀ c ∈ doc.children id, doc.Returns print c) : Paired (doc.printObject print id 0 span) := by
  have source := returning.source
  have uncut := returning.layout parsed object
  have base : '\n' ∉ Text.lineIndent doc.source span.start := Text.not_mem_lineIndent _ _
  have entries : ∀ e ∈ (doc.children id).filter fun c => (doc.role c).isEntry, doc.Returns print e := fun e member =>
    each e (List.mem_of_mem_filter member)
  show Paired (if _ then if _ then _ else _ else if _ then _ else _)
  split
  · split
    · exact source.slice uncut.start
    · exact returning.printExpanded entries (source.slice uncut.openEnd) base
  · split
    · exact returning.printEmptied (source.slice uncut.start) (uncut.before source) (uncut.after source)
        (source.slice uncut.closeStart) base
    · exact returning.printObjectEntries uncut entries base

theorem printWith (each : ∀ c ∈ doc.children id, doc.Returns print c) : doc.Returns (doc.printWith print) id := by
  intro here base none
  have uncut := returning.origin id
  unfold Document.printWith
  simp only
  split
  next text is =>
    rw [is] at uncut
    split
    · exact .of_not_mem (uncut text rfl)
    · exact returning.printWritten each none
  · exact returning.printWritten each none
  next buffer span is =>
    have file : buffer = 0 := by simpa [Node.buffer?, is] using here
    rw [file] at is ⊢
    rw [is] at uncut
    split
    · exact returning.source.slice uncut.1
    · split
      next object => exact returning.printObject is object each
      · exact returning.printParts is each

/-- Every node that is no part of a snippet is printed with its line feeds behind carriage returns. -/
theorem render (forest : doc.Forest) (id : NodeId) : doc.Returns doc.render id := by
  refine forest.induction (fun id each here base none => ?_) id
  rw [forest.render_eq]
  exact returning.printWith each here base none

end Returning

end Document

end StoreModels
