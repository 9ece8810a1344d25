import StoreModels.Proofs.Checked.Records
import StoreModels.Proofs.Document.Render
import StoreModels.Proofs.Document.Tokens
import StoreModels.Proofs.Literal.Spelled
import StoreModels.Proofs.Model.Origins

/-!
Reading the documents that edits lead to. Where every text of a document is read as a tree that stands in it, nothing
that the library asks a document for is ever missing: no node and no text by its number, and no part of a text by its
bytes.
-/
namespace StoreModels
open Syntax (Dialect Reader Role Tree Outline sampleReader)
open Checked (Stands IsPeelable Intact Legible)

/-- Whether every part of the trees that a text is read as stands in it, and the string literals among them are tokens:
    they have no other parts than leaves that say nothing. -/
def Syntax.Reader.Stands [Reader] (dialect : Dialect) (text : List Char) : Prop :=
  Reader.Meets Checked.Stands dialect text ∧ Reader.Atomic (· == .stringLiteral) dialect text

namespace Document
variable {doc first : Document} {dialect : Dialect} {source : List Char} {id : NodeId}

/-! ## Parsed files -/

theorem Laid.empty {law : List Char → String → Syntax.Span → Outline → Prop} (none : doc.nodes.size = 0) :
    doc.Laid law := by
  intro p buffer span parsed
  rw [node_beyond (none ▸ Nat.zero_le p)] at parsed
  cases parsed

/-- What edits keep of a file, besides that it is sound. -/
structure Firm (doc : Document) : Prop where
  laid : doc.Laid Stands
  atomic : doc.Atomic (· == .stringLiteral)
  settled : doc.Settled (· == .stringLiteral)

theorem string_token (role : Role) (string : (role == .stringLiteral) = true) : role.isToken = true := by
  rw [beq_iff_eq] at string
  rw [string]
  rfl

theorem parse_firm [Reader] (file : Document.parse dialect source = .ok first)
    (stands : Reader.Stands dialect source) :
    first.Firm ∧ 0 < first.nodes.size ∧ (first.node 0).buffer? = some 0 := by
  have size := (parse_buffers file).2.2.2
  have texts := (parse_buffers file).1
  obtain ⟨tree, read, rfl⟩ := parse_ofTree file
  obtain ⟨start, none, _, _, _, adopted⟩ := ofTree_adopted dialect source tree
  have known : (ofTree dialect source tree).buffer 0 = source := by simp [buffer, texts]
  have home := adopted.origin
  rw [none] at home
  refine ⟨⟨?_, ?_, (Settled.empty string_token none).adopt string_token adopted⟩, size, by rw [Node.buffer?, home]⟩
  · refine adopted.laid (Sound.empty none) (Laid.empty none) ?_
    rw [known]
    exact stands.1 tree read
  · exact (Atomic.empty none).adopt (Sound.empty none) adopted (stands.2 tree read)

/-! ## Edited files -/

/-- A leaf that an edit wrote prints as its text. -/
theorem printNode_leaf {text : List Char} (written : (doc.node id).origin = .written (some text))
    (bare : doc.children id = []) : doc.printNode id = text := by
  have none : (doc.node id).children = [] := bare
  simp [printNode, depth, printDown, printWith, written, none]

theorem peelable_of_quotes {raw : List Char} (front : raw.head?.any Literal.isQuote = true)
    (back : raw.getLast?.any Literal.isQuote = true) : IsPeelable raw := by
  have narrow : ∀ c, Literal.isQuote c = true → c.utf8Size = 1 := by
    intro c quote
    rcases (by simpa [Literal.isQuote] using quote : c = '\'' ∨ c = '"') with rfl | rfl <;> rfl
  refine ⟨fun c first => narrow c ?_, fun c last => narrow c ?_⟩
  · rw [Option.mem_def.mp first] at front
    exact front
  · rw [Option.mem_def.mp last] at back
    exact back

/-- The texts that edits write can be taken out of quotes. -/
def Peels (origin : Origin) : Prop := ∀ text, origin = .written (some text) → IsPeelable text

theorem namePart_narrow {c : Char} (part : Literal.isNamePart c = true) : c.utf8Size = 1 :=
  Char.utf8Size_eq_one_iff.mpr (UInt32.le_trans (Literal.isNamePart_range part).2 (by decide))

theorem peels_admits : Origin.Admits Peels where
  joint _ impossible := by cases impossible
  snippet _ _ _ _ impossible := by cases impossible
  quoted text quote isQuote written is := by
    cases is
    refine peelable_of_quotes (by simpa [Literal.quoted] using isQuote) ?_
    rw [Literal.quoted, List.getLast?_append]
    simpa using isQuote
  bare name bare written is := by
    cases is
    have all : ∀ c ∈ name, Literal.isNamePart c = true := by
      cases name with
      | nil => exact fun _ member => by cases member
      | cons c rest =>
        simp only [Literal.isBareName, Bool.and_eq_true, List.all_eq_true] at bare
        refine List.forall_mem_cons.mpr ⟨?_, bare.2⟩
        rw [Literal.isNamePart, bare.1]
        rfl
    exact ⟨fun c first => namePart_narrow (all c (List.mem_of_head? first)),
      fun c last => namePart_narrow (all c (List.mem_of_getLast? last))⟩

/-- A document that edits of a file lead to has no hole, and its string literals can be taken out of their quotes. -/
theorem Reached.legible [Reader] (reached : Reached first doc) (file : Document.parse dialect source = .ok first)
    (texts : ∀ text ∈ doc.buffers, Reader.Stands doc.dialect text) : Legible doc := by
  obtain ⟨indent, moves⟩ := reached.moves (parse_sound file)
  have start := (parse_sound file).withFallbackIndent indent
  have ext := moves.toExtends start
  have sound := moves.sound start
  have own : Reader.Stands dialect source := reached.dialect_eq file ▸ texts source (reached.source_mem file)
  obtain ⟨firm, present, home⟩ := parse_firm file own
  have firm : doc.Firm := by
    refine moves.keep (P := Firm) start (.of_all texts) ⟨firm.laid, ⟨firm.atomic.leaves⟩,
      ⟨firm.settled.clean, firm.settled.written⟩⟩ fun move soundly learns before => ?_
    have atomic := move.atomic string_token soundly (fun text member => (learns text member).2) before.atomic
    exact ⟨move.laid soundly (fun text member => (learns text member).1) before.laid, atomic,
      move.settled string_token soundly before.atomic atomic before.settled⟩
  have root : doc.root = 0 := ext.root.trans (parse_buffers file).2.2.1
  have present : 0 < (first.withFallbackIndent indent).nodes.size := present
  have stems := reached.stems peels_admits file fun _ _ _ _ _ impossible => by cases impossible
  refine ⟨⟨sound, root ▸ Nat.lt_of_lt_of_le present ext.size, ?_, firm.laid⟩, fun {id} string => ?_⟩
  · rw [root, Node.buffer?, ext.origin 0 present]
    exact home
  · have token : (doc.role id == .stringLiteral) = true := by rw [string]; rfl
    cases origin : (doc.node id).origin with
    | written text =>
      obtain ⟨bare, text, written⟩ := firm.settled.written token (by simp [Node.isWritten, Node.buffer?, origin])
      rw [Document.text, printNode_leaf written bare]
      exact stems.origin id text written
    | parsed buffer span =>
      obtain ⟨_, _, _, _, _, spelled⟩ := firm.laid id buffer span origin
      have shown : doc.text id = Text.slice (doc.buffer buffer) span.start span.stop :=
        sound.forest.render_clean origin (firm.settled.clean token) _ _
      rw [shown]
      rcases spelled string with keyword | quotes
      · rw [keyword.2, Syntax.Outline.kind_of_string string]
        exact ⟨fun c first => Option.mem_some_iff.mp first ▸ rfl, fun c last => Option.mem_some_iff.mp last ▸ rfl⟩
      · exact peelable_of_quotes quotes.1 quotes.2

/-- Reading a document that edits of a file lead to, whether they succeeded or not, never asks for a node or a text that
    is not there, nor for a part of a text that starts after its end, lies outside the text or cuts a character: printing
    it and any of its nodes, finding its models, reading their records, the values of expressions and the actions that
    code dispatches all go through and give what they give without these checks. -/
theorem reached_readable [Reader] (reached : Reached first doc) (file : Document.parse dialect source = .ok first)
    (texts : ∀ text ∈ doc.buffers, Reader.Stands doc.dialect text) :
    Checked.printFile doc = some doc.print ∧
      (∀ id < doc.nodes.size,
        Checked.printNode doc id = some (doc.printNode id) ∧ Checked.text doc id = some (doc.text id) ∧
          (Checked.evaluate doc id).run = some (doc.evaluate id) ∧
          ∀ callees, Checked.dispatches doc callees id = some (doc.dispatches callees id)) ∧
      (∀ filter, (Checked.models doc filter).run = some (doc.models filter)) ∧
      ∀ callees filter, (Checked.extract doc callees filter).run = some (doc.extract callees filter) := by
  have legible := reached.legible file texts
  refine ⟨Checked.printFile_some legible.toIntact, fun id lt => ⟨?_, ?_, ?_, fun callees => ?_⟩, fun filter => ?_,
    fun callees filter => ?_⟩
  · exact Checked.printNode_some legible.toIntact lt
  · exact Checked.text_some legible lt
  · exact congrArg ExceptT.run (Checked.evaluate_given legible lt)
  · exact Checked.dispatches_some legible lt
  · exact congrArg ExceptT.run (Checked.models_given legible filter)
  · exact congrArg ExceptT.run (Checked.extract_given legible filter)

theorem sampleReader_stands (dialect : Dialect) (text : List Char) : sampleReader.Stands dialect text :=
  ⟨Syntax.meets_of_lookup (by decide +kernel) dialect text,
    fun tree read t below string => (Syntax.sampleReader_regular dialect text).2 tree read t below (string_token _ string)⟩

theorem reached_readable_sample :
    Checked.printFile (sampleEdited (.addEntry .effects "go".toList (some ['2']))) =
      some (sampleEdited (.addEntry .effects "go".toList (some ['2']))).print ∧
    (sampleEdited (.addEntry .effects "go".toList (some ['2']))).print =
      "x=\x7bnamespace:'a',reducers:\x7bb:1\x7d, effects: \x7b\n  go: 2\n\x7d\x7d".toList :=
  ⟨(@reached_readable _ _ .markup Syntax.sampleText sampleReader (sampleEdited_reached _) sampleFile_parsed
    fun text _ => sampleReader_stands _ text).1, by decide +kernel⟩

end Document

end StoreModels
