import StoreModels.Proofs.Document.Breaks
import StoreModels.Proofs.Model.Marks
import StoreModels.Proofs.Model.Origins

/-!
Files with the longer line break keep it. Whatever is done to the models of a file in which every line feed stands
behind a carriage return, the text that is printed afterwards is such a text again, also where the snippets that came
into it had other line breaks.
-/
namespace StoreModels
open Syntax (Dialect Reader Tree sampleText sampleTree snippetText)
open Text (Paired)

/-- Whether the parts of the tree that a text is read as, if any, start and end between no carriage return and line
    feed. -/
def Syntax.Reader.Unsplit [Reader] (dialect : Dialect) (text : List Char) : Prop :=
  ∀ tree, Reader.program? dialect text = some tree → ∀ t ∈ tree.subtrees, t.span.Uncut text

namespace Document
variable {doc first : Document} {dialect : Dialect} {source : List Char}

/-- What edits bring into a document has no line feed, or comes from a snippet. -/
theorem originUncut_admits (source : List Char) : Origin.Admits (originUncut source) where
  joint := by simp [originUncut]
  snippet buffer span some := by
    cases buffer with
    | zero => exact absurd rfl some
    | succ _ => trivial
  quoted text quote isQuote leaf is := by
    cases is
    exact Literal.not_mem_quoted isQuote text
  bare name bare leaf is := by
    cases is
    exact Literal.not_mem_bareName bare

theorem Reached.returning [Reader] (reached : Reached first doc) (file : Document.parse dialect source = .ok first)
    (readable : doc.Readable) (unsplit : Reader.Unsplit dialect source) (feed : '\n' ∈ source) (paired : Paired source)
    (indent : '\n' ∉ doc.fallbackIndent) : doc.Returning := by
  obtain ⟨start, moves⟩ := reached.moves (parse_sound file)
  have ext := moves.toExtends ((parse_sound file).withFallbackIndent start)
  obtain ⟨newline, shown⟩ := parse_style file
  have texts := (parse_buffers file).1
  have sourceIs : doc.source = source := by
    rw [Document.source, ext.buffer (by simp [withFallbackIndent, texts])]
    simp [buffer, withFallbackIndent, texts]
  have stems := reached.stems (originUncut_admits source) file fun program read t part => unsplit program read t part
  refine ⟨?_, ?_, sourceIs ▸ paired, sourceIs ▸ stems.origin, reached.shaped file readable⟩
  · rw [ext.newline]
    exact newline.trans (Text.newlineOf_paired paired feed)
  · have shown' : doc.shownIndent = Text.indentUnit? source := ext.shownIndent.trans shown
    rw [indentUnit, shown']
    cases unit : Text.indentUnit? source with
    | none => exact indent
    | some unit' => exact Text.not_mem_indentUnit unit

/-- A file whose line feeds all stand behind carriage returns is such a file after all edits of its models. -/
theorem print_paired [Reader] (file : Document.parse dialect source = .ok first) (reached : Reached first doc)
    (readable : doc.Readable) (unsplit : Reader.Unsplit dialect source) (feed : '\n' ∈ source) (paired : Paired source)
    (indent : '\n' ∉ doc.fallbackIndent) : Paired doc.print := by
  have returning := reached.returning file readable unsplit feed paired indent
  obtain ⟨start, moves⟩ := reached.moves (parse_sound file)
  have ext := moves.toExtends ((parse_sound file).withFallbackIndent start)
  obtain ⟨_, _, rootIs, present⟩ := parse_buffers file
  have lawful : (first.withFallbackIndent start).Readable := readable.of_extends ext
  obtain ⟨span, parsed, _⟩ := parse_root file lawful
  have root : doc.root = 0 := ext.root.trans rootIs
  have origin : (doc.node doc.root).origin = .parsed 0 span := by
    rw [root]
    exact (ext.origin 0 present).trans parsed
  have uncut := returning.origin doc.root
  rw [origin] at uncut
  have inner := returning.render (reached.sound file).forest doc.root (by simp [Node.buffer?, origin]) [] (by simp)
  rw [print_eq]
  simp only [Node.span?, origin]
  exact ((returning.source.take _).append inner).append (returning.source.drop uncut.2)

/-! ## A sample -/

/-- The sample file on a line of its own. -/
def returnedText : List Char := sampleText ++ ['\r', '\n']

/-- A snippet over two lines, with a bare line feed. -/
def brokenSnippet : List Char := ['[', '\n', '2', ']']

def brokenSnippetTree : Tree := .enclosed 7 (.bracketed none 1 5 [.number none 3 4])

/-- A reader of the file and the snippet alone. -/
@[reducible] def returnedReader : Reader :=
  ⟨fun _ text => List.lookup text
    [(returnedText, sampleTree.withSpan ⟨0, 34⟩), (snippetText brokenSnippet, brokenSnippetTree)]⟩

def returnedFile : Document := ofTree .markup returnedText (sampleTree.withSpan ⟨0, 34⟩)

/-- The file after the reducer has been exchanged for the snippet. -/
def returnedEdited : Document :=
  (@ModelSet.apply returnedReader ⟨returnedFile.withFallbackIndent [' ', ' '], [⟨5, ['a']⟩]⟩
    (.setEntry .reducers ['b'] brokenSnippet)).1.doc

/-- The bare line feed of the snippet gets its carriage return. -/
theorem print_paired_sample :
    Paired returnedEdited.print ∧
      returnedEdited.print = "x=\x7bnamespace:'a',reducers:\x7bb:[\r\n2]\x7d\x7d\r\n".toList := by
  refine ⟨?_, by decide +kernel⟩
  have file : @Document.parse returnedReader .markup returnedText = .ok returnedFile := rfl
  have reached : @Reached returnedReader returnedFile returnedEdited :=
    @Reached.edit returnedReader _ _ (@Reached.start returnedReader _ [' ', ' ']) [⟨5, ['a']⟩] (by decide +kernel) _
  have paired : Paired returnedText := (Paired.of_not_mem (by decide)).append (Paired.break (by decide))
  refine @print_paired _ _ _ _ returnedReader file reached (fun text _ => Syntax.lawful_of_lookup (by decide) _ text) ?_
    (by decide) paired (by decide +kernel)
  intro tree read
  have read : some (sampleTree.withSpan ⟨0, 34⟩) = some tree := read
  cases read
  decide

end Document

end StoreModels
