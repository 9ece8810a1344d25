import StoreModels.Proofs.Document.Lineage
import StoreModels.Proofs.Document.Plain
import StoreModels.Proofs.Model.Runs

/-!
The documents that edits of models lead to, from a parsed file on. A set of models may be one that was found just now or
one that was kept from before: all that matters is that its models are object literals, which they stay.
-/
namespace StoreModels
open Syntax (Dialect Tree Reader sampleReader)

namespace Document
variable {doc doc' first : Document} {dialect : Dialect} {source : List Char}

/-! ## Parsed files -/

/-- A document without nodes is sound. -/
theorem Sound.empty (none : doc.nodes.size = 0) : doc.Sound := by
  have missing : ∀ x, doc.node x = .missing := fun x => node_beyond (none ▸ Nat.zero_le x)
  have bare : ∀ x, doc.children x = [] := fun x => children_beyond (none ▸ Nat.zero_le x)
  refine ⟨⟨?_, ?_, ?_, ?_, ⟨fun _ => 0, ?_⟩⟩, ?_, ?_, ⟨fun _ => 0, ?_⟩, ?_, ?_, ?_, ?_, ?_⟩ <;>
    simp [parent?, bare, missing, Node.missing, Node.written, Node.isWritten, Node.buffer?]

theorem Shaped.empty (none : doc.nodes.size = 0) : doc.Shaped := by
  have missing : ∀ x, doc.node x = .missing := fun x => node_beyond (none ▸ Nat.zero_le x)
  refine ⟨fun {p buffer span} parsed => ?_, fun {p} pair => ?_⟩
  · rw [missing] at parsed
    cases parsed
  · rw [role, missing] at pair
    cases pair

theorem ofTree_adopted (dialect : Dialect) (source : List Char) (tree : Tree) :
    ∃ start : Document, start.nodes.size = 0 ∧ start.buffers = [source] ∧ start.dialect = dialect ∧ start.root = 0 ∧
      Adopted start (ofTree dialect source tree) 0 tree := by
  obtain ⟨start, startIs⟩ : ∃ start : Document, start =
      { dialect, buffers := [source], nodes := #[], root := 0, shownIndent := Text.indentUnit? source
        fallbackIndent := [' ', ' '], newline := Text.newlineOf source } := ⟨_, rfl⟩
  obtain ⟨number, adoption⟩ := adopt_adoption start 0 none tree
  have root : (start.adopt 0 none tree).2 = (start.adopt 0 none tree).1.root := by
    rw [number, adoption.longer.rest, startIs]
    rfl
  have is : ofTree dialect source tree = (start.adopt 0 none tree).1 := by
    show ({ (Document.adopt _ 0 none tree).1 with root := _ } : Document) = _
    rw [← startIs, root]
  refine ⟨start, ?_, ?_, ?_, ?_, is ▸ adoption.adopted⟩
  all_goals rw [startIs]
  rfl

theorem parse_ofTree [Reader] (file : Document.parse dialect source = .ok first) :
    ∃ tree, Reader.program? dialect source = some tree ∧ first = ofTree dialect source tree := by
  unfold Document.parse at file
  split at file
  next tree found =>
    cases file
    exact ⟨tree, found, rfl⟩
  next => cases file

theorem parse_sound [Reader] (file : Document.parse dialect source = .ok first) : first.Sound := by
  obtain ⟨tree, _, rfl⟩ := parse_ofTree file
  obtain ⟨start, none, buffers, _, _, adopted⟩ := ofTree_adopted dialect source tree
  exact adopted.sound (Sound.empty none) (by simp [buffers])

theorem parse_buffers [Reader] (file : Document.parse dialect source = .ok first) :
    first.buffers = [source] ∧ first.dialect = dialect ∧ first.root = 0 ∧ 0 < first.nodes.size := by
  obtain ⟨tree, _, rfl⟩ := parse_ofTree file
  obtain ⟨start, none, buffers, language, root, adopted⟩ := ofTree_adopted dialect source tree
  have rest := adopted.longer.rest
  refine ⟨?_, ?_, ?_, ?_⟩
  · rw [rest, ← buffers]
  · rw [rest, ← language]
  · rw [rest, ← root]
  · have present := (adopted.sprouted.topLt start.nodes.size (by simp)).2
    rw [none] at present
    exact present

/-- The style of a document is what its file shows. -/
theorem parse_style [Reader] (file : Document.parse dialect source = .ok first) :
    first.newline = Text.newlineOf source ∧ first.shownIndent = Text.indentUnit? source := by
  obtain ⟨tree, _, rfl⟩ := parse_ofTree file
  obtain ⟨_, adoption⟩ := adopt_adoption
    { dialect, buffers := [source], nodes := #[], root := 0, shownIndent := Text.indentUnit? source
      fallbackIndent := [' ', ' '], newline := Text.newlineOf source } 0 none tree
  have ext := adoption.longer.toExtends
  exact ⟨ext.newline, ext.shownIndent⟩

theorem parse_shaped [Reader] (file : Document.parse dialect source = .ok first) (readable : first.Readable) :
    first.Shaped := by
  obtain ⟨tree, found, rfl⟩ := parse_ofTree file
  obtain ⟨start, none, buffers, language, _, adopted⟩ := ofTree_adopted dialect source tree
  have texts : (ofTree dialect source tree).buffers = [source] := (parse_buffers file).1
  have dialects : (ofTree dialect source tree).dialect = dialect := (parse_buffers file).2.1
  refine adopted.shaped (Sound.empty none) (Shaped.empty none) ?_
  have known : (ofTree dialect source tree).buffer 0 = source := by simp [buffer, texts]
  have lawful := readable source (by simp [texts])
  rw [dialects] at lawful
  rw [known]
  exact (lawful tree found).2

/-- A file as it is parsed has no other text than its own. -/
theorem parse_readable [Reader] (file : Document.parse dialect source = .ok first)
    (lawful : Reader.Lawful dialect source) : first.Readable := by
  obtain ⟨texts, language, _⟩ := parse_buffers file
  intro text member
  rw [texts, List.mem_singleton] at member
  rw [member, language]
  exact lawful

/-- The root of a file was read as the whole tree of its text. -/
theorem parse_program [Reader] (file : Document.parse dialect source = .ok first) :
    ∃ program, Reader.program? dialect source = some program ∧ (first.node 0).origin = .parsed 0 program.span := by
  obtain ⟨tree, found, rfl⟩ := parse_ofTree file
  obtain ⟨start, none, _, _, _, adopted⟩ := ofTree_adopted dialect source tree
  exact ⟨tree, found, by rw [← adopted.origin, none]⟩

/-- The root of a file lies in its text. -/
theorem parse_root [Reader] (file : Document.parse dialect source = .ok first) (readable : first.Readable) :
    ∃ span, (first.node 0).origin = .parsed 0 span ∧ span.stop ≤ source.length := by
  obtain ⟨texts, language, _⟩ := parse_buffers file
  obtain ⟨program, read, origin⟩ := parse_program file
  have lawful := readable source (by simp [texts])
  rw [language] at lawful
  exact ⟨program.span, origin, (lawful program read).1⟩

/-- Every node of a file as it is parsed was read as a part of one tree. -/
theorem parse_tree [Reader] (file : Document.parse dialect source = .ok first) :
    ∃ program, Reader.program? dialect source = some program ∧
      ∀ x < first.nodes.size, ∃ t ∈ program.subtrees, first.Mirrors 0 x t := by
  obtain ⟨tree, found, rfl⟩ := parse_ofTree file
  obtain ⟨start, none, _, _, _, adopted⟩ := ofTree_adopted dialect source tree
  exact ⟨tree, found, fun x lt => adopted.mirrors x (none ▸ Nat.zero_le x) lt⟩

theorem parse_mirrors [Reader] (file : Document.parse dialect source = .ok first) {x : NodeId}
    (lt : x < first.nodes.size) : ∃ tree, first.Mirrors 0 x tree := by
  obtain ⟨_, _, mirrors⟩ := parse_tree file
  obtain ⟨t, _, mirrors⟩ := mirrors x lt
  exact ⟨t, mirrors⟩

/-- The nodes of a file as it was read have the children that they were parsed with, and took no places. -/
theorem parse_untouched [Reader] (file : Document.parse dialect source = .ok first) (x : NodeId) :
    (first.node x).firstChildren = first.children x ∧ (first.node x).replaces = none := by
  by_cases lt : x < first.nodes.size
  · obtain ⟨_, mirrors⟩ := parse_mirrors file lt
    exact ⟨mirrors.firstChildren, mirrors.tookNone⟩
  · rw [children, node_beyond (Nat.le_of_not_lt lt)]
    exact ⟨rfl, rfl⟩

/-- The tokens of a file as it was read are plain. -/
theorem parse_plain [Reader] (file : Document.parse dialect source = .ok first)
    (readable : Reader.Plain dialect source) :
    first.Plain := by
  obtain ⟨program, read, mirrors⟩ := parse_tree file
  have leaves := readable program read
  refine ⟨fun {x c} token member => ?_⟩
  obtain ⟨t, below, mirrors⟩ := mirrors x (lt_of_mem_children member)
  exact mirrors.atomic leaves below token member

theorem withFallbackIndent_self : doc.withFallbackIndent doc.fallbackIndent = doc := rfl

/-- The indentation of a document does not matter to its nodes. -/
theorem Sound.withFallbackIndent (sound : doc.Sound) (indent : List Char) : (doc.withFallbackIndent indent).Sound where
  forest := sound.forest.congr rfl (fun _ => rfl) (fun _ => rfl)
  bufferLt := sound.bufferLt
  takenLt := sound.takenLt
  aged := sound.aged
  firstLt := sound.firstLt
  firstNodup := sound.firstNodup
  firstTookNone := sound.firstTookNone
  kept parsed other := by
    refine (sound.kept parsed other).imp fun c f ends => ?_
    exact ends.congr (P := fun _ => True) trivial (fun _ _ _ _ => trivial) fun _ _ => rfl
  clean := sound.clean

theorem Shaped.withFallbackIndent (shaped : doc.Shaped) (indent : List Char) : (doc.withFallbackIndent indent).Shaped :=
  ⟨shaped.laid, shaped.valued⟩

/-! ## Found models -/

theorem recognize_object {filter : Option (List Char)} {object : NodeId} {model : Model}
    (found : doc.recognize filter object = .ok (some model)) : model.object = object := by
  unfold recognize at found
  simp only [bind, Except.bind, pure, Except.pure] at found
  split at found
  · cases found
  · split at found
    · cases found
    · split at found
      · cases found
      · cases found
        rfl

theorem mem_recognizeAll {filter : Option (List Char)} {objects : List NodeId} {models : List Model} {model : Model}
    (found : doc.recognizeAll filter objects = .ok models) (member : model ∈ models) : model.object ∈ objects := by
  induction objects generalizing models with
  | nil =>
    cases found
    cases member
  | cons object rest ih =>
    simp only [recognizeAll, bind, Except.bind, pure, Except.pure] at found
    split at found
    · cases found
    next one is =>
      split at found
      · cases found
      next others are =>
        cases found
        rcases List.mem_append.mp member with here | later
        · rw [Option.mem_toList.mp here] at is
          rw [recognize_object is]
          exact List.mem_cons_self
        · exact List.mem_cons_of_mem _ (ih are later)

/-- The models that a document is searched for are object literals. -/
theorem models_objects {filter : Option (List Char)} {models : List Model} (found : doc.models filter = .ok models) :
    ∀ m ∈ models, doc.role m.object = .object := by
  intro m member
  have listed := mem_recognizeAll found member
  rw [objects, List.mem_filter] at listed
  simpa using listed.2

/-- The models that a document is searched for lie below its root. -/
theorem models_below {filter : Option (List Char)} {models : List Model} (found : doc.models filter = .ok models) :
    ∀ m ∈ models, doc.Below doc.root m.object := fun _ member =>
  below_of_mem_descend (List.mem_of_mem_filter (mem_recognizeAll found member))

/-! ## Reached documents -/

/-- The documents that edits of sets of models lead to from a document, whether they succeed or fail. -/
inductive Reached [Reader] (first : Document) : Document → Prop
  | start (indent : List Char) : Reached first (first.withFallbackIndent indent)
  | edit {doc : Document} (reached : Reached first doc) (models : List Model)
    (objects : ∀ m ∈ models, doc.role m.object = .object) (edit : ModelEdit) :
    Reached first ((ModelSet.mk doc models).apply edit).1.doc

namespace Reached
variable [Reader]

theorem refl (doc : Document) : Reached doc doc := Reached.start doc.fallbackIndent

theorem moves (reached : Reached first doc) (sound : first.Sound) :
    ∃ indent, (first.withFallbackIndent indent).Moves doc := by
  induction reached with
  | start indent => exact ⟨indent, Relation.ReflTransGen.refl⟩
  | edit _ models objects edit ih =>
    obtain ⟨indent, moves⟩ := ih
    have soundly := moves.sound (sound.withFallbackIndent indent)
    exact ⟨indent, moves.trans (ModelSet.apply_moves soundly objects edit)⟩

theorem sound (reached : Reached first doc) (file : Document.parse dialect source = .ok first) : doc.Sound := by
  obtain ⟨indent, moves⟩ := reached.moves (parse_sound file)
  exact moves.sound ((parse_sound file).withFallbackIndent indent)

/-- A reached document is in the language of its file. -/
theorem dialect_eq (reached : Reached first doc) (file : Document.parse dialect source = .ok first) :
    doc.dialect = dialect := by
  obtain ⟨indent, moves⟩ := reached.moves (parse_sound file)
  rw [(moves.toExtends ((parse_sound file).withFallbackIndent indent)).dialect]
  exact (parse_buffers file).2.1

/-- A reached document still has the text of its file. -/
theorem source_mem (reached : Reached first doc) (file : Document.parse dialect source = .ok first) :
    source ∈ doc.buffers := by
  obtain ⟨indent, moves⟩ := reached.moves (parse_sound file)
  refine (moves.toExtends ((parse_sound file).withFallbackIndent indent)).buffers.subset ?_
  simp [withFallbackIndent, (parse_buffers file).1]

/-- A reached document has a text and a root, as its file has. -/
theorem present (reached : Reached first doc) (file : Document.parse dialect source = .ok first) :
    0 < doc.buffers.length ∧ doc.root < doc.nodes.size := by
  obtain ⟨indent, moves⟩ := reached.moves (parse_sound file)
  have ext := moves.toExtends ((parse_sound file).withFallbackIndent indent)
  obtain ⟨texts, _, root, some⟩ := parse_buffers file
  have start : (first.withFallbackIndent indent).root < first.nodes.size := root.symm ▸ some
  constructor
  · have more : (first.withFallbackIndent indent).buffers.length ≤ doc.buffers.length := ext.buffers.length_le
    simp only [withFallbackIndent, texts, List.length_singleton] at more
    exact more
  · rw [ext.root]
    exact Nat.lt_of_lt_of_le start ext.size

theorem shaped (reached : Reached first doc) (file : Document.parse dialect source = .ok first)
    (readable : doc.Readable) : doc.Shaped := by
  obtain ⟨indent, moves⟩ := reached.moves (parse_sound file)
  have sound := (parse_sound file).withFallbackIndent indent
  have start : (first.withFallbackIndent indent).Readable := readable.of_extends (moves.toExtends sound)
  exact moves.shaped sound ((parse_shaped file start).withFallbackIndent indent) (.of_all readable)

/-- The tokens of a reached document are plain if those of its texts are. -/
theorem plain (reached : Reached first doc) (file : Document.parse dialect source = .ok first)
    (texts : ∀ text ∈ doc.buffers, Reader.Plain doc.dialect text) : doc.Plain := by
  obtain ⟨indent, moves⟩ := reached.moves (parse_sound file)
  have sound := (parse_sound file).withFallbackIndent indent
  have own : Reader.Plain dialect source := reached.dialect_eq file ▸ texts source (reached.source_mem file)
  exact moves.plain sound (.of_all texts) ⟨(parse_plain file own).leaves⟩

theorem lineage (reached : Reached first doc) (file : Document.parse dialect source = .ok first)
    (readable : doc.Readable) : ∃ indent, Lineage (first.withFallbackIndent indent) doc := by
  obtain ⟨indent, moves⟩ := reached.moves (parse_sound file)
  have sound := (parse_sound file).withFallbackIndent indent
  have start : (first.withFallbackIndent indent).Readable := readable.of_extends (moves.toExtends sound)
  have origin : Lineage (first.withFallbackIndent indent) (first.withFallbackIndent indent) :=
    Lineage.parsed sound (fun x => (parse_untouched file x).1) fun x => (parse_untouched file x).2
  refine ⟨indent, (moves.keep (P := fun d => d.Shaped ∧ Lineage (first.withFallbackIndent indent) d) sound (.of_all readable)
    ⟨(parse_shaped file start).withFallbackIndent indent, origin⟩ ?_).2⟩
  intro d d' move soundly lawful before
  exact ⟨move.shaped soundly before.1 lawful, move.lineage sound soundly before.1 before.2⟩

end Reached

/-! ## A sample -/

/-- The sample file as it is read. -/
def sampleFile : Document := ofTree .markup Syntax.sampleText Syntax.sampleTree

/-- The sample file after an edit of its model. -/
def sampleEdited (edit : ModelEdit) : Document :=
  (@ModelSet.apply sampleReader ⟨sampleFile.withFallbackIndent [' ', ' '], [⟨5, ['a']⟩]⟩ edit).1.doc

theorem sampleFile_parsed : @Document.parse sampleReader .markup Syntax.sampleText = .ok sampleFile := rfl

theorem sampleEdited_reached (edit : ModelEdit) : @Reached sampleReader sampleFile (sampleEdited edit) :=
  @Reached.edit sampleReader _ _ (@Reached.start sampleReader _ [' ', ' ']) [⟨5, ['a']⟩] (by decide +kernel) edit

end Document

end StoreModels
