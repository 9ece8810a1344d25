import StoreModels.Proofs.Model.Marks

/-!
What edits leave alone. The text of an edited document is the text of the file with some parts exchanged: those of nodes
whose places were taken, and those of object literals that gained or lost entries. All else stands as it did.
-/
namespace StoreModels
open Syntax (Dialect Span Reader sampleReader)
open Text (slice splice Ordered Exchange)

namespace Document
variable {doc first : Document} {dialect : Dialect} {source : List Char} {id : NodeId} {span : Span}

/-- The place of a node has been taken by another one, where edits take places. -/
def Displaced (first doc : Document) (f : NodeId) : Prop :=
  (∃ n, (doc.node n).replaces = some f) ∧ ∃ p, f ∈ (first.node p).firstChildren ∧ first.Displaceable p f

/-- An object literal has an entry that came after none of those it was parsed with, or has lost one of these. -/
def Regrouped (doc : Document) (id : NodeId) : Prop :=
  doc.role id = .object ∧
    ((∃ e ∈ doc.entries id, ∀ f ∈ doc.firstEntries id, ¬ doc.Ends e f) ∨
      ∃ f ∈ doc.firstEntries id, ∀ e ∈ doc.entries id, ¬ doc.Ends e f)

/-- An exchange is at the part of the file where a node stood that was displaced or regrouped. -/
def Warranted (first doc : Document) (exchange : Exchange) : Prop :=
  ∃ f < first.nodes.size, (first.node f).origin = .parsed 0 exchange.1 ∧ (first.Displaced doc f ∨ doc.Regrouped f)

/-- A text is a part of the file with warranted exchanges. -/
def Spliced (first doc : Document) (span : Span) (printed : List Char) : Prop :=
  ∃ exchanges, Ordered span.start span.stop (exchanges.map Prod.fst) ∧
    printed = splice doc.source span.stop span.start exchanges ∧
    ∀ exchange ∈ exchanges, first.Warranted doc exchange

/-- A part that is exchanged as a whole. -/
theorem Spliced.whole {printed : List Char} (le : span.start ≤ span.stop)
    (warranted : first.Warranted doc (span, printed)) : first.Spliced doc span printed := by
  refine ⟨[(span, printed)], ⟨Nat.le_refl _, le, Nat.le_refl _⟩, (Text.splice_whole _ _ _).symm, ?_⟩
  simpa using warranted

namespace Lineage

theorem regrouped_or_keeps (lineage : Lineage first doc) (start : first.Sound) (object : doc.role id = .object)
    (lt : id < first.nodes.size) : doc.Regrouped id ∨ doc.KeepsEntries id := by
  by_cases regrouped : doc.Regrouped id
  · exact .inl regrouped
  · simp only [Regrouped, object, true_and, not_or, not_exists, not_and, not_forall, Classical.not_not] at regrouped
    obtain ⟨noneNew, noneLost⟩ := regrouped
    refine .inr ((lineage.lined ((lineage.ext.role lt).symm.trans object)).keeps lineage.ext start lt ?_ ?_)
    · intro e member
      obtain ⟨f, among, ends⟩ := noneNew e member
      exact ⟨f, among, ends⟩
    · intro f member
      obtain ⟨e, among, ends⟩ := noneLost f member
      exact ⟨e, among, ends⟩

/-- Children in the places of first ones of the file: each is that one, or has displaced it. -/
theorem children_spliced (lineage : Lineage first doc) (start : first.Sound)
    (below : ∀ c ∈ doc.children id, ∀ {span}, c < first.nodes.size → (doc.node c).origin = .parsed 0 span →
      ∀ base, first.Spliced doc span (doc.render c base 0))
    {firsts children : List NodeId} {parts : List Exchange} {printed : List Char}
    (listed : ∀ f ∈ firsts, f ∈ (first.node id).firstChildren) (members : ∀ c ∈ children, c ∈ doc.children id)
    (ends : List.Forall₂ doc.Ends children firsts) (is : printed = splice doc.source span.stop span.start parts)
    (ordered : Ordered span.start span.stop (parts.map Prod.fst))
    (exchanged : List.Forall₂ (doc.Exchanged doc.render 0) (firsts.zip children) parts) :
    first.Spliced doc span printed := by
  rw [is]
  refine Text.splice_nested doc.source ordered fun part member => ?_
  obtain ⟨⟨f, c⟩, pair, parsed, indent, text⟩ := forall₂_mem_right exchanged member
  obtain ⟨among, child⟩ := List.of_mem_zip pair
  have came : doc.Ends c f := List.forall₂_zip ends.flip pair
  have lt := start.firstLt (listed f among)
  by_cases same : c = f
  · subst same
    have place : (doc.node c).buffer? = some 0 := by simp [Node.buffer?, parsed]
    have shown : part.2 = doc.render c indent 0 := by
      rw [text]
      simp only [printChild, place, if_true]
    rw [shown]
    exact below c (members c child) lt parsed indent
  · obtain ⟨n, took⟩ := came.taken same
    refine Spliced.whole (ordered.mem (List.mem_map_of_mem member)).2.1 ⟨f, lt, ?_, .inl ⟨⟨n, took⟩, id, ?_, ?_⟩⟩
    · exact (lineage.ext.origin f lt).symm.trans parsed
    · exact listed f among
    · exact lineage.taken took (listed f among)

/-- A node of the file prints as the part it was parsed from with warranted exchanges. -/
theorem render_spliced (lineage : Lineage first doc) (start : first.Sound) (sound : doc.Sound) (shaped : doc.Shaped)
    (lt : id < first.nodes.size) (parsed : (doc.node id).origin = .parsed 0 span) (base : List Char) :
    first.Spliced doc span (doc.render id base 0) := by
  -- From the leaves up: a changed node has its children in their places, or is exchanged as a whole.
  refine sound.forest.induction (P := fun id => ∀ {span}, id < first.nodes.size →
    (doc.node id).origin = .parsed 0 span → ∀ base, first.Spliced doc span (doc.render id base 0))
    (fun id below {span} lt parsed base => ?_) id lt parsed base
  obtain ⟨outline, places, fits⟩ := shaped.laid parsed
  have le : span.start ≤ span.stop := fits.1.le
  have firsts : (doc.node id).firstChildren = (first.node id).firstChildren := lineage.ext.firstChildren id lt
  have from_text : (doc.node id).isWritten = false := by simp [Node.isWritten, Node.buffer?, parsed]
  cases dirty : (doc.node id).dirty with
  | false => exact ⟨[], le, sound.forest.render_clean parsed dirty base 0, by simp⟩
  | true =>
    have is : doc.render id base 0 = if doc.role id = .object then doc.printObject doc.render id 0 span
        else doc.printParts doc.render (doc.node id) 0 span := by
      rw [sound.forest.render_eq]
      simp only [printWith, parsed, dirty, Bool.not_true, Bool.false_eq_true, if_false]
      rfl
    by_cases object : doc.role id = .object
    · rw [if_pos object] at is
      rcases lineage.regrouped_or_keeps start object lt with regrouped | keeps
      · exact .whole le ⟨id, lt, (lineage.ext.origin id lt).symm.trans parsed, .inr regrouped⟩
      · obtain ⟨parts, printed, ordered, exchanged⟩ := printObject_splice sound object places fits keeps
        exact lineage.children_spliced start below (fun f member => firsts ▸ List.mem_of_mem_filter member)
          (fun c member => List.mem_of_mem_filter member) keeps (is.trans printed) ordered exchanged
    · rw [if_neg object] at is
      have kept := sound.kept from_text object
      have count : (doc.node id).children.length = (doc.node id).firstChildren.length := kept.length_eq
      rw [printParts, if_pos count] at is
      obtain ⟨parts, printed, ordered, exchanged⟩ := printPlaces_splice places count fits.1
      rw [printed] at is
      exact lineage.children_spliced start below (fun f member => firsts ▸ member) (fun c member => member) kept is
        ordered exchanged

end Lineage

/-- The text of a document that edits lead to is the text of the file with parts exchanged that do not overlap, each of
    them the part of a node of the file whose place was taken, as the value of a pair or as a shorthand or method, or of
    an object literal of the file that gained or lost entries. -/
theorem print_splice [Reader] (file : Document.parse dialect source = .ok first) (reached : Reached first doc)
    (readable : doc.Readable) :
    ∃ exchanges : List Exchange, Ordered 0 source.length (exchanges.map Prod.fst) ∧
      doc.print = splice source source.length 0 exchanges ∧ ∀ exchange ∈ exchanges, first.Warranted doc exchange := by
  have sound := reached.sound file
  have shaped := reached.shaped file readable
  obtain ⟨indent, lineage⟩ := reached.lineage file readable
  obtain ⟨texts, _, rootIs, present⟩ := parse_buffers file
  have start : first.Sound := parse_sound file
  have sourceIs : doc.source = source := by
    have kept : doc.buffer 0 = first.buffer 0 := lineage.ext.buffer (by simp [withFallbackIndent, texts])
    rw [Document.source, kept, buffer, texts]
    rfl
  have root : doc.root = 0 := lineage.ext.root.trans rootIs
  have lawful : (first.withFallbackIndent indent).Readable := readable.of_extends lineage.ext
  obtain ⟨span, parsed, inside⟩ := parse_root file lawful
  have origin : (doc.node 0).origin = .parsed 0 span := (lineage.ext.origin 0 present).trans parsed
  obtain ⟨exchanges, ordered, printed, warranted⟩ :=
    lineage.render_spliced (start.withFallbackIndent indent) sound shaped present origin []
  have behind : Ordered span.stop source.length (([] : List Exchange).map Prod.fst) := inside
  have wide : Ordered 0 span.stop (exchanges.map Prod.fst) := ordered.mono (Nat.zero_le _)
  refine ⟨exchanges, by simpa using wide.append behind, ?_, warranted⟩
  have whole := Text.splice_append source wide behind
  rw [List.append_nil] at whole
  have head : source.take span.start = slice source 0 span.start := by simp [slice]
  have last : source.drop span.stop = slice source span.stop source.length := by
    rw [slice, ← List.length_drop, List.take_length]
  rw [print_eq, root]
  simp only [Node.span?, origin]
  rw [printed, sourceIs, ← whole, head, last, Text.slice_append_splice source (Nat.zero_le _) ordered]
  rfl

/-- The sample file without its reducer is the file with the part of an object literal exchanged. -/
theorem print_splice_sample :
    (∃ exchanges : List Exchange, Ordered 0 32 (exchanges.map Prod.fst) ∧
      (sampleEdited (.removeEntry .reducers ['b'])).print = splice Syntax.sampleText 32 0 exchanges ∧
      ∀ exchange ∈ exchanges, sampleFile.Warranted (sampleEdited (.removeEntry .reducers ['b'])) exchange) ∧
      (sampleEdited (.removeEntry .reducers ['b'])).print = "x=\x7bnamespace:'a',reducers:\x7b\x7d\x7d".toList := by
  have spliced := @print_splice _ _ _ _ sampleReader sampleFile_parsed (sampleEdited_reached (.removeEntry .reducers ['b']))
    fun text _ => (Syntax.sampleReader_regular _ text).1
  exact ⟨spliced, by decide +kernel⟩

end Document

end StoreModels
