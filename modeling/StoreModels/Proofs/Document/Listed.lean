import StoreModels.Proofs.Document.Lexed
import StoreModels.Proofs.Document.Render
import StoreModels.Proofs.Document.Thinned

/-!
What an object literal that gained or lost entries prints as: a brace, its entries with one comma between each two, and a
brace, with blanks and comments in between, and every line comment at the end of its line. The printer tells by the texts
around the entries where a line break is needed, and it goes wrong in three places: behind an entry that itself ends in a
line comment, above what stands on the last line of the last entry's tail, and behind a line comment with the end of a block
comment in it.
-/
namespace StoreModels
open Syntax (Span Role Outline Reader)
open Text (slice trimStart trimEnd isBlank Scans Listing Lowered listed)

variable {text : List Char}

/-! ## Comments around the entries -/

namespace Layout

/-- What stands below the last entry of a literal starts on a line of its own, or there is no line comment that it could
    come to stand behind. -/
def Footed (layout : Layout) (text : List Char) : Prop :=
  Lowered (layout.after text) ∨
    (∀ slot ∈ layout.slots, slot.lineComment = false) ∧ ¬ ['/', '/'] <:+: layout.before text

theorem before_bare {layout : Layout} (bare : layout.slots = []) :
    layout.before text = slice text layout.openEnd layout.closeStart := by
  rw [Layout.before, bare]
  rfl

/-- What is left of a literal without its entries: the comments above the first and below the last one. -/
def remains (layout : Layout) (text : List Char) : List Char :=
  trimEnd (layout.before text) ++ trimEnd (layout.after text)

/-- What is left of a literal without its entries has several lines, or no end of a block comment behind the start of a line
    comment. -/
def Clear (layout : Layout) (text : List Char) : Prop :=
  '\n' ∉ layout.remains text →
    ∀ rest, ['/', '/'] <+: rest → rest <:+ layout.remains text → ¬ ['*', '/'] <:+: rest

/-- What is left of a literal can be read: a line comment above the entries may have lost its line feed, and what stood below
    them starts with one. -/
theorem Scanned.remains {layout : Layout} (scanned : layout.Scanned text) (footed : layout.Footed text) :
    ∃ last, Scans false [] (layout.remains text) last := by
  obtain ⟨line, above⟩ := scanned.before.trimEnd rfl
  obtain ⟨last, below⟩ := scanned.after.trimEnd rfl
  cases line with
  | false => exact ⟨last, above.append below⟩
  | true =>
    have marks : ['/', '/'] <:+: layout.before text := (above.slashes rfl rfl rfl).trans (Text.prefix_trimEnd _).isInfix
    have lowered : Lowered (layout.after text) := footed.resolve_right fun none => none.2 marks
    by_cases none : trimEnd (layout.after text) = []
    · rw [Layout.remains, none, List.append_nil]
      exact ⟨true, above⟩
    · obtain ⟨lowered, feed⟩ := lowered.trimEnd none
      exact ⟨last, above.append (below.behind rfl rfl lowered feed)⟩

end Layout

namespace Document
variable {doc : Document} {print : ChildPrinter} {setting : Setting} {layout : Layout}
  {entries : List NodeId} {indent base : List Char} {buffer context : BufferId} {span : Span} {p : NodeId}

/-! ## Line breaks -/

theorem isBlank_lineIndent (text : List Char) (offset : Nat) : ∀ c ∈ Text.lineIndent text offset, isBlank c = true :=
  fun _ => isBlank_indent _

theorem isBlank_lastIndent (text : List Char) : ∀ c ∈ lastIndent text, isBlank c = true := fun _ => isBlank_indent _

theorem feed_newline (newline : Text.Newline) : '\n' ∈ newline.text := by cases newline <;> decide

/-- A line break with indentation ends a line comment. -/
theorem scans_lineBreak (newline : Text.Newline) (blank : ∀ c ∈ indent, isBlank c = true) (line : Bool) :
    Scans line [] (newline.text ++ indent) false :=
  .closing (List.forall_mem_append.mpr ⟨isBlank_newline newline, blank⟩)
    fun _ => List.mem_append_left _ (feed_newline newline)

/-! ## Entries -/

/-- The last leaf below a node, down to a depth. -/
def lastLeaf (doc : Document) : Nat → NodeId → NodeId
  | 0, id => id
  | depth + 1, id =>
    match (doc.children id).getLast? with
    | some last => doc.lastLeaf depth last
    | none => id

/-- Whether the last leaf below a node is a line comment. -/
def endsInLine (doc : Document) (id : NodeId) : Bool :=
  let leaf := doc.lastLeaf doc.depth id
  doc.role leaf == .comment && ['/', '/'].isPrefixOf (doc.text leaf)

/-- Entries as a printer lists them. -/
def listing (doc : Document) (print : ChildPrinter) (indent : List Char) (context : BufferId) (entries : List NodeId) :
    List (List Char × Bool) :=
  entries.map fun entry => (doc.printChild print entry indent context, doc.endsInLine entry)

theorem entry_scans {entry : NodeId} (closed : doc.endsInLine entry = false) :
    Scans false [.entry text (doc.endsInLine entry)] text false := by
  simpa [closed] using @Scans.entry text (doc.endsInLine entry) [] [] _ (.nil _)

theorem printTail_scans {slot : Option Slot} (scanned : ∀ s ∈ slot, s.Scanned text) (wantsComma : Bool) :
    Scans false (if wantsComma then [.comma] else []) (printTail text slot wantsComma)
      ((slot.map (·.lineComment)).getD false) := by
  cases slot with
  | none =>
    cases wantsComma with
    | false => exact .nil false
    | true => exact .comma (.nil false)
  | some slot =>
    obtain ⟨_, tail, bare⟩ := scanned slot rfl
    cases comma : slot.comma with
    | none =>
      rw [comma] at tail
      cases wantsComma with
      | false => simpa [printTail, comma] using tail
      | true => simpa [printTail, comma] using Scans.comma tail
    | some span =>
      rw [comma] at tail
      cases wantsComma with
      | false => simpa [printTail, comma] using bare span comma
      | true => simpa [printTail, comma] using tail

/-- The parts of a literal can be read, and a line break ends a line comment. -/
structure Setting.Scanned (setting : Setting) : Prop where
  layout : setting.layout.Scanned setting.text
  blank : ∀ c ∈ setting.lineBreak, isBlank c = true
  feed : '\n' ∈ setting.lineBreak

namespace Setting.Scanned
variable (scanned : setting.Scanned)
include scanned

theorem gap (previous position : Option Nat) : ∀ c ∈ setting.gap previous position, isBlank c = true := by
  have fallback : ∀ c ∈ (if setting.multiline then setting.lineBreak else [' ']), isBlank c = true := by
    split
    next => exact scanned.blank
    next => simp [isBlank]
  have behind : ∀ c ∈ setting.gap previous none, isBlank c = true := by
    cases previous with
    | none => exact fallback
    | some p =>
      simp only [Setting.gap]
      split
      next => exact scanned.layout.gaps p
      next => exact fallback
  rcases position with _ | _ | q
  · exact behind
  · exact behind
  · exact scanned.layout.gaps q

/-- What separates two entries ends a line comment. -/
theorem separates (previous position : Option Nat) (line : Bool) :
    Scans line [] (if line && !(setting.gap previous position).contains '\n' then setting.lineBreak
      else setting.gap previous position) false := by
  split
  next => exact .closing scanned.blank fun _ => scanned.feed
  next no =>
    refine .closing (scanned.gap previous position) fun is => ?_
    simpa [is] using no

theorem lead {slot : Option Slot} (each : ∀ s ∈ slot, s ∈ setting.layout.slots) :
    Scans false [] (setting.lead slot) false := by
  cases slot with
  | none => exact .nil false
  | some slot =>
    rw [lead_eq]
    exact (scanned.layout.slots slot (each slot rfl)).lead

end Setting.Scanned

/-- Entries after others are read as entries with commas between them. -/
theorem printEntries_scans (scanned : setting.Scanned) {entries : List (NodeId × Option Nat)} {isFirst line : Bool}
    {previous : Option Nat} (closed : ∀ entry ∈ entries.map Prod.fst, doc.endsInLine entry = false)
    (start : isFirst = true → line = false) :
    Scans line
      (listed (setting.layout.slots.getLast?.bind (·.comma)).isSome
        (doc.listing print setting.indent setting.buffer (entries.map Prod.fst)))
      (doc.printEntries print setting isFirst previous line entries).1
      (doc.printEntries print setting isFirst previous line entries).2 := by
  induction entries generalizing isFirst line previous with
  | nil => exact .nil line
  | cons entry rest ih =>
    obtain ⟨entry, position⟩ := entry
    obtain ⟨here, others⟩ := List.forall_mem_cons.mp closed
    obtain ⟨slot, slotIs⟩ : ∃ slot, slot = position.bind fun q => setting.layout.slots[q]? := ⟨_, rfl⟩
    have member : ∀ s ∈ slot, s ∈ setting.layout.slots := by
      intro s is
      rw [slotIs, Option.mem_def, Option.bind_eq_some_iff] at is
      obtain ⟨q, _, found⟩ := is
      exact List.mem_of_getElem? found
    have tail := printTail_scans (fun s is => scanned.layout.slots s (member s is))
      (!rest.isEmpty || (setting.layout.slots.getLast?.bind (·.comma)).isSome)
    have more := @ih false ((slot.map (·.lineComment)).getD false) position others (by simp)
    have gap : Scans line [] (if isFirst then [] else
        if line && !(setting.gap previous position).contains '\n' then setting.lineBreak
        else setting.gap previous position) false := by
      cases isFirst with
      | false => exact scanned.separates previous position line
      | true => exact start rfl ▸ .nil line
    have whole : Scans false [.entry (doc.printChild print entry setting.indent setting.buffer) (doc.endsInLine entry)]
        (doc.printChild print entry setting.indent setting.buffer) false := entry_scans here
    have all := (((gap.append (scanned.lead member)).append whole).append tail).append more
    subst slotIs
    simpa [printEntries, listing, listed] using all

/-- Entries end in a line comment only where a slot does. -/
theorem printEntries_plain {entries : List (NodeId × Option Nat)}
    (plain : ∀ slot ∈ setting.layout.slots, slot.lineComment = false) (isFirst : Bool) (previous : Option Nat) :
    (doc.printEntries print setting isFirst previous false entries).2 = false := by
  induction entries generalizing isFirst previous with
  | nil => rfl
  | cons entry rest ih =>
    obtain ⟨entry, position⟩ := entry
    have here : (((position.bind fun q => setting.layout.slots[q]?).map (·.lineComment)).getD false) = false := by
      cases found : position.bind fun q => setting.layout.slots[q]? with
      | none => rfl
      | some slot =>
        obtain ⟨q, _, there⟩ := Option.bind_eq_some_iff.mp found
        exact plain slot (List.mem_of_getElem? there)
    simp only [printEntries, here]
    exact ih false position

/-! ## Literals -/

/-- An object literal that has entries and had some. -/
theorem printObjectEntries_listing (scanned : layout.Scanned text) (footed : layout.Footed text)
    (closed : ∀ entry ∈ entries, doc.endsInLine entry = false) :
    Listing (doc.listing print (layout.entryIndent text) buffer entries)
      (doc.printObjectEntries print text buffer layout (Text.lineIndent text layout.span.start) entries) := by
  have sets : (doc.entrySetting text buffer layout).Scanned :=
    ⟨scanned, isBlank_lineBreak, List.mem_append_left _ (feed_newline _)⟩
  obtain ⟨places, placesAre⟩ : ∃ places, places =
    entries.map fun entry => (entry, doc.slotPosition? layout.slots (doc.nodes.size + 1) entry) := ⟨_, rfl⟩
  obtain ⟨printed, is⟩ : ∃ printed,
    doc.printEntries print (doc.entrySetting text buffer layout) true none false places = printed := ⟨_, rfl⟩
  have names : places.map Prod.fst = entries := by simp [placesAre, Function.comp_def]
  have body := @printEntries_scans doc print _ sets places true false none (names ▸ closed) fun _ => rfl
  have plain : (∀ slot ∈ layout.slots, slot.lineComment = false) → printed.2 = false := fun plain =>
    is ▸ @printEntries_plain doc print (doc.entrySetting text buffer layout) places plain true none
  rw [names, is] at body
  rw [printObjectEntries_eq (placesAre ▸ is)]
  have ending : Scans printed.2 [] (if printed.2 && !(layout.after text).contains '\n'
      then doc.newline.text ++ Text.lineIndent text layout.span.start ++ trimStart (layout.after text)
      else layout.after text) false := by
    split
    next =>
      exact (scans_lineBreak doc.newline (isBlank_lineIndent _ _) printed.2).append (scanned.after.trimStart rfl rfl)
    next no =>
      cases line : printed.2 with
      | false => exact scanned.after
      | true =>
        have lowered : Lowered (layout.after text) := footed.resolve_right fun none => by simp [plain none.1] at line
        exact scanned.after.behind rfl rfl lowered (by simpa [line] using no)
  rw [scanned.opening, scanned.closing]
  exact .join scanned.before body ending

/-- An object literal that lost all its entries. -/
theorem printEmptied_listing (scanned : layout.Scanned text) (footed : layout.Footed text) (clear : layout.Clear text)
    (blank : ∀ c ∈ base, isBlank c = true) :
    Listing [] (doc.printEmptied (slice text layout.span.start layout.openEnd) (layout.before text) (layout.after text) base
      (slice text layout.closeStart layout.span.stop)) := by
  obtain ⟨last, kept⟩ := scanned.remains footed
  simp only [printEmptied]
  rw [show trimEnd (layout.before text) ++ trimEnd (layout.after text) = layout.remains text from rfl]
  split
  next => exact ⟨[], false, rfl, .nil false⟩
  next =>
    have ending : Scans last [] (if (layout.remains text).contains '\n' || Text.endsInLineComment (layout.remains text)
        then doc.newline.text ++ base else [' ']) false := by
      split
      next => exact scans_lineBreak doc.newline blank last
      next no =>
        rw [Bool.or_eq_true, not_or] at no
        have single : '\n' ∉ layout.remains text := by simpa using no.1
        cases last with
        | false => exact .closing (by simp [isBlank]) (by simp)
        | true => exact absurd (kept.noticed single (clear single)) no.2
    rw [scanned.opening, scanned.closing]
    have listing := @Listing.join [] _ [] _ false _ _ kept (.nil last) ending
    simpa using listing

/-- New entries on lines of their own, behind what stands in a literal. -/
theorem printLines_scans (blank : ∀ c ∈ indent, isBlank c = true) (some : entries ≠ [])
    (closed : ∀ entry ∈ entries, doc.endsInLine entry = false) (line : Bool) :
    Scans line (listed false (doc.listing print indent context entries)) (doc.printLines print entries indent context)
      false := by
  rw [printLines]
  refine (scans_lineBreak doc.newline blank line).append ?_
  induction entries with
  | nil => exact absurd rfl some
  | cons entry rest ih =>
    obtain ⟨here, others⟩ := List.forall_mem_cons.mp closed
    have whole : Scans false [.entry (doc.printChild print entry indent context) (doc.endsInLine entry)]
        (doc.printChild print entry indent context) false := entry_scans here
    cases rest with
    | nil => exact whole
    | cons second more =>
      have comma : Scans false [.comma] (',' :: (doc.newline.text ++ indent)) false :=
        .comma (scans_lineBreak doc.newline blank false)
      exact (whole.append comma).append (ih (by simp) others)

/-- An object literal that had no entries. -/
theorem printExpanded_listing {inner : List Char} (scans : Scans false [] inner false)
    (unit : ∀ c ∈ doc.indentUnit, isBlank c = true) (blank : ∀ c ∈ base, isBlank c = true) (some : entries ≠ [])
    (closed : ∀ entry ∈ entries, doc.endsInLine entry = false) :
    ∃ indent, (∀ c ∈ indent, isBlank c = true) ∧
      Listing (doc.listing print indent buffer entries) (doc.printExpanded print entries inner base buffer) := by
  simp only [printExpanded]
  generalize indentIs : (if (trimEnd inner).contains '\n' && !(Text.trim (trimEnd inner)).isEmpty
    then lastIndent (trimEnd inner) else base ++ doc.indentUnit) = indent
  have indented : ∀ c ∈ indent, isBlank c = true := by
    rw [← indentIs]
    split
    next => exact isBlank_lastIndent _
    next => exact List.forall_mem_append.mpr ⟨blank, unit⟩
  obtain ⟨last, kept⟩ : ∃ last,
      Scans false [] (if (Text.trim (trimEnd inner)).isEmpty then [] else trimEnd inner) last := by
    split
    next => exact ⟨false, .nil false⟩
    next => exact scans.trimEnd rfl
  have lines := @printLines_scans doc print entries indent buffer indented some closed last
  have listing := Listing.join kept lines (scans_lineBreak doc.newline blank false)
  exact ⟨indent, indented, by simpa using listing⟩

/-- An object literal that an edit made. -/
theorem printWritten_listing (object : doc.role p = .object) (unit : ∀ c ∈ doc.indentUnit, isBlank c = true)
    (blank : ∀ c ∈ base, isBlank c = true) (closed : ∀ entry ∈ doc.children p, doc.endsInLine entry = false) :
    Listing (doc.listing print (base ++ doc.indentUnit) context (doc.children p))
      (doc.printWritten print (doc.node p) base context) := by
  rw [printWritten, show (doc.node p).role = .object from object]
  show Listing _ (if (doc.children p).isEmpty then _ else _)
  split
  next none =>
    rw [List.isEmpty_iff.mp none]
    exact ⟨[], false, rfl, .nil false⟩
  next some =>
    have lines := @printLines_scans doc print (doc.children p) (base ++ doc.indentUnit) context
      (List.forall_mem_append.mpr ⟨blank, unit⟩) (by simpa using some) closed false
    have listing := Listing.join (.nil false) lines (scans_lineBreak doc.newline blank false)
    simpa [children] using listing

/-- An object literal without entries that had none. -/
theorem verbatim_listing (scanned : layout.Scanned text) (bare : layout.slots = []) :
    Listing [] (slice text layout.span.start layout.span.stop) := by
  have opens : layout.span.start ≤ layout.openEnd := by
    by_contra reversed
    have opening := scanned.opening
    rw [Text.slice_empty text (Nat.le_of_not_le reversed)] at opening
    cases opening
  have closes : layout.closeStart ≤ layout.span.stop := by
    by_contra reversed
    have closing := scanned.closing
    rw [Text.slice_empty text (Nat.le_of_not_le reversed)] at closing
    cases closing
  rw [← Text.slice_append text opens (Nat.le_trans scanned.inside closes), ← Text.slice_append text scanned.inside closes,
    scanned.opening, scanned.closing, ← Layout.before_bare bare]
  have listing := @Listing.join [] _ [] [] false _ _ scanned.before (.nil false) (.nil false)
  simpa using listing

/-- What stands between the braces of an object literal: all children of one that an edit made, and the entries of one that
    was parsed. -/
def members (doc : Document) (p : NodeId) : List NodeId :=
  if (doc.node p).isWritten then doc.children p else doc.entries p

/-- Whether an object literal gained or lost entries since it was made or parsed. -/
def Altered (doc : Document) (p : NodeId) : Prop :=
  doc.members p ≠ if (doc.node p).isWritten then [] else doc.firstEntries p

instance (doc : Document) (p : NodeId) : Decidable (doc.Altered p) := inferInstanceAs (Decidable (_ ≠ _))

/-- Whether nothing about an object literal misleads the printer. -/
structure Listable (doc : Document) (p : NodeId) : Prop where
  /-- No entry ends in a line comment. -/
  closed : ∀ entry ∈ doc.members p, doc.endsInLine entry = false
  footed : ∀ {buffer span}, (doc.node p).origin = .parsed buffer span →
    (doc.layout p (doc.buffer buffer) span).slots ≠ [] →
    (doc.layout p (doc.buffer buffer) span).Footed (doc.buffer buffer)
  clear : ∀ {buffer span}, (doc.node p).origin = .parsed buffer span →
    (doc.layout p (doc.buffer buffer) span).slots ≠ [] → doc.entries p = [] →
    (doc.layout p (doc.buffer buffer) span).Clear (doc.buffer buffer)

theorem printObject_listing (scanned : (doc.layout p (doc.buffer buffer) span).Scanned (doc.buffer buffer))
    (parsed : (doc.node p).origin = .parsed buffer span) (unit : ∀ c ∈ doc.indentUnit, isBlank c = true)
    (listable : doc.Listable p) :
    ∃ indent, (∀ c ∈ indent, isBlank c = true) ∧
      Listing (doc.listing print indent buffer (doc.entries p)) (doc.printObject print p buffer span) := by
  have blank := isBlank_lineIndent (doc.buffer buffer) span.start
  have closed : ∀ entry ∈ doc.entries p, doc.endsInLine entry = false := by
    have made : (doc.node p).isWritten = false := by simp [Node.isWritten, Node.buffer?, parsed]
    simpa [members, made] using listable.closed
  have footed := listable.footed parsed
  have clear := listable.clear parsed
  have same : (doc.layout p (doc.buffer buffer) span).span = span := rfl
  simp only [printObject, List.isEmpty_iff]
  rw [show ((doc.children p).filter fun c => (doc.role c).isEntry) = doc.entries p from rfl]
  generalize doc.layout p (doc.buffer buffer) span = layout at *
  subst same
  by_cases bare : layout.slots = []
  · rw [if_pos bare]
    by_cases none : doc.entries p = []
    · rw [if_pos none, none]
      exact ⟨[], by simp, verbatim_listing scanned bare⟩
    · rw [if_neg none]
      exact printExpanded_listing (Layout.before_bare bare ▸ scanned.before) unit blank none closed
  · rw [if_neg bare]
    by_cases none : doc.entries p = []
    · rw [if_pos none, none]
      exact ⟨[], by simp, printEmptied_listing scanned (footed bare) (clear bare none) blank⟩
    · rw [if_neg none]
      exact ⟨_, fun _ member => isBlank_isIndent (Layout.isIndent_entryIndent _ member),
        printObjectEntries_listing scanned (footed bare) closed⟩

/-! ## Reached documents -/

theorem isBlank_indentUnit {unit : List Char} (shown : Text.indentUnit? text = some unit) : ∀ c ∈ unit, isBlank c = true := by
  obtain ⟨least, _, rfl⟩ := Option.map_eq_some_iff.mp shown
  intro c member
  split at member
  next tab =>
    rw [tab, List.mem_singleton] at member
    exact member ▸ rfl
  next => exact (List.eq_of_mem_replicate member) ▸ rfl

variable {first : Document} {dialect : Syntax.Dialect} {source : List Char}

/-- The unit of indentation is made of blanks if the one that stands in for it is. -/
theorem Reached.indentUnit [Reader] (reached : Reached first doc) (file : Document.parse dialect source = .ok first)
    (fallback : ∀ c ∈ doc.fallbackIndent, isBlank c = true) : ∀ c ∈ doc.indentUnit, isBlank c = true := by
  obtain ⟨start, moves⟩ := reached.moves (parse_sound file)
  have ext := moves.toExtends ((parse_sound file).withFallbackIndent start)
  have shown : doc.shownIndent = Text.indentUnit? source := ext.shownIndent.trans (parse_style file).2
  rw [Document.indentUnit, shown]
  cases unit : Text.indentUnit? source with
  | none => exact fallback
  | some unit' => exact isBlank_indentUnit unit

/-- In every document that edits lead to, an object literal that gained or lost entries is printed as a listing of the
    entries that it has now: there are just these between its braces, in their order, with one comma between each two, and
    whatever comments there are, no comma, entry or brace stands inside one. That holds as long as nothing about the literal
    misleads the printer. A literal was written by an edit or read with its braces; the keyword of its kind was read without
    children. -/
theorem literals_listed [Reader] (reached : Reached first doc) (file : Document.parse dialect source = .ok first)
    (meets : ∀ text ∈ doc.buffers, Reader.Meets Outline.Lexed doc.dialect text)
    (fallback : ∀ c ∈ doc.fallbackIndent, isBlank c = true) (object : doc.role p = .object)
    (literal : (doc.node p).isWritten = true ∨ (doc.node p).firstChildren ≠ []) (altered : doc.Altered p)
    (listable : doc.Listable p) (blank : ∀ c ∈ base, isBlank c = true) (context : BufferId) :
    ∃ indent, (∀ c ∈ indent, isBlank c = true) ∧
      Listing (doc.listing doc.render indent ((doc.node p).buffer?.getD context) (doc.members p))
        (doc.render p base context) := by
  have sound := reached.sound file
  have unit := reached.indentUnit file fallback
  rw [sound.forest.render_eq, printWith]
  cases origin : (doc.node p).origin with
  | parsed buffer span =>
    have home : (doc.node p).buffer? = some buffer := by simp [Node.buffer?, origin]
    have read : (doc.node p).isWritten = false := by simp [Node.isWritten, home]
    have dirty : (doc.node p).dirty = true := by
      by_contra clean
      have same := (sound.clean read (by simpa using clean)).1
      rw [Altered, members, read] at altered
      exact altered (by simp [entries, firstEntries, same])
    have scanned := (reached.laid file meets).scanned origin object (literal.resolve_left (by simp [read]))
    obtain ⟨indent, indented, listing⟩ := @printObject_listing doc doc.render buffer span p scanned origin unit listable
    refine ⟨indent, indented, ?_⟩
    simpa [dirty, home, members, read, show (doc.node p).role = .object from object] using listing
  | written shown =>
    have home : (doc.node p).buffer? = none := by simp [Node.buffer?, origin]
    have made : (doc.node p).isWritten = true := by simp [Node.isWritten, home]
    have all : doc.members p = doc.children p := if_pos made
    have some : doc.children p ≠ [] := by simpa [Altered, all, made] using altered
    have closed := listable.closed
    rw [all] at closed
    have listing := @printWritten_listing doc doc.render base context p object unit blank closed
    refine ⟨_, List.forall_mem_append.mpr ⟨blank, unit⟩, ?_⟩
    rw [home, Option.getD_none, all]
    cases shown with
    | none => exact listing
    | some text =>
      have occupied : (doc.node p).children.isEmpty = false := by simpa [children] using some
      simpa only [occupied, Bool.false_eq_true, if_false] using listing

end Document

/-! ## A sample -/

namespace Syntax

/-- A file with an object literal in which a line comment contains the end of a block comment. -/
def markedText : List Char := "x=\x7bnamespace:'a',reducers:\x7b// see */\na:1,b:2\x7d\x7d".toList

/-- The tree of the file. -/
def markedTree : Tree :=
  .assigned 0 (.braced (some "right") 2 46
    [.spaced 3, .mark "," 16, .keyed 17 25 (.braced (some "value") 26 45
      [.comment 27 36, .keyed 37 38 (.number (some "value") 39 40), .mark "," 40,
        .keyed 41 42 (.number (some "value") 43 44)])])

/-- A reader of this file. -/
@[reducible] def markedReader : Reader := ⟨fun _ text => List.lookup text [(markedText, markedTree)]⟩

end Syntax

namespace Document
open Syntax (markedText markedTree markedReader)

def markedFile : Document := ofTree .markup markedText markedTree

theorem markedFile_parsed : @Document.parse markedReader .markup markedText = .ok markedFile := rfl

/-- The file after its container lost the last entry. -/
def markedShortened : Document :=
  (@ModelSet.apply markedReader ⟨markedFile, [⟨5, ['a']⟩]⟩ (.removeEntry .reducers ['b'])).1.doc

/-- The file after its container lost all entries. -/
def markedEmptied : Document :=
  (@ModelSet.apply markedReader ⟨markedShortened, [⟨5, ['a']⟩]⟩ (.removeEntry .reducers ['a'])).1.doc

theorem markedShortened_reached : @Reached markedReader markedFile markedShortened :=
  @Reached.edit markedReader _ _ (@Reached.refl markedReader markedFile) [⟨5, ['a']⟩] (by decide +kernel)
    (.removeEntry .reducers ['b'])

theorem markedEmptied_reached : @Reached markedReader markedFile markedEmptied :=
  @Reached.edit markedReader _ _ markedShortened_reached [⟨5, ['a']⟩] (by decide +kernel) (.removeEntry .reducers ['a'])

theorem literals_listed_shortened :
    markedShortened.members 18 = [21] ∧ markedShortened.render 18 [] 0 = "\x7b// see */\na:1\x7d".toList ∧
      ∃ indent, (∀ c ∈ indent, isBlank c = true) ∧
        Listing (markedShortened.listing markedShortened.render indent ((markedShortened.node 18).buffer?.getD 0) [21])
          (markedShortened.render 18 [] 0) := by
  have members : markedShortened.members 18 = [21] := by decide +kernel
  have origin : (markedShortened.node 18).origin = .parsed 0 ⟨26, 45⟩ := by decide +kernel
  have after : (markedShortened.layout 18 (markedShortened.buffer 0) ⟨26, 45⟩).after (markedShortened.buffer 0) = [] := by
    decide +kernel
  have fallback : markedShortened.fallbackIndent = [' ', ' '] := by decide +kernel
  have listable : markedShortened.Listable 18 := by
    refine ⟨by decide +kernel, fun {buffer span} parsed _ => .inl ?_, fun {buffer span} _ _ none => ?_⟩
    · rw [origin] at parsed
      cases parsed
      simp [after, Lowered]
    · exact absurd none (by decide +kernel)
  refine ⟨members, by decide +kernel, ?_⟩
  rw [← members]
  exact @literals_listed _ _ _ _ _ _ markedReader markedShortened_reached markedFile_parsed
    (fun text _ => Syntax.meets_of_lookup (by decide +kernel) _ text) (by simp [fallback, isBlank]) (by decide +kernel)
    (.inr (by decide +kernel)) (by decide +kernel) listable (by simp) 0

/-- Without entries, what is left of the literal has the closing brace inside the line comment. -/
theorem literals_listed_emptied :
    @Document.parse markedReader .markup markedText = .ok markedFile ∧
      @Reached markedReader markedFile markedEmptied ∧ markedEmptied.role 18 = .object ∧ markedEmptied.Altered 18 ∧
      markedEmptied.print = "x=\x7bnamespace:'a',reducers:\x7b// see */ \x7d\x7d".toList ∧
      markedEmptied.members 18 = [] ∧ ¬ Listing [] (markedEmptied.render 18 [] 0) := by
  have printed : markedEmptied.render 18 [] 0 = "\x7b// see */ \x7d".toList := by decide +kernel
  refine ⟨rfl, markedEmptied_reached, by decide +kernel, by decide +kernel, by decide +kernel, by decide +kernel, ?_⟩
  rintro ⟨inner, trailing, same, scans⟩
  have split : inner ++ ['\x7d'] = "// see */ ".toList ++ ['\x7d'] := by
    rw [printed] at same
    exact (List.cons.inj same).2.symm
  have is : inner = "// see */ ".toList := List.append_cancel_right split
  rw [is] at scans
  cases Scans.swallowed scans (by decide)

end Document

end StoreModels
