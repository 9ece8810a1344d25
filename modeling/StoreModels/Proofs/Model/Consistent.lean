import StoreModels.Proofs.Model.Marks

/-!
The node table that edits leave behind. Its links are those of a forest, parsed nodes keep their number of children, and
a mark is missing only where nothing below has changed. So a document without a mark at its root prints as its file, and
no edit meets a node that lacks the parent it should have.
-/
namespace StoreModels
open Syntax (Dialect Reader sampleReader)

namespace Document
variable {doc first : Document} {dialect : Dialect} {source : List Char} {id c p : NodeId}

/-- What is true of the nodes of every document that edits lead to. -/
structure Consistent (doc : Document) : Prop where
  /-- A node's parent lists it exactly once. -/
  listedOnce : ∀ {c p}, doc.parent? c = some p → (doc.children p).count c = 1
  /-- A listed child has that parent. -/
  childParent : ∀ {p c}, c ∈ doc.children p → doc.parent? c = some p
  /-- No node is above itself. -/
  acyclic : ∀ id, ¬ Relation.TransGen (fun p c => c ∈ doc.children p) id id
  /-- A parsed node other than an object literal has as many children as it was parsed with. -/
  arity : ∀ {p}, (doc.node p).isWritten = false → doc.role p ≠ .object →
    (doc.children p).length = (doc.node p).firstChildren.length
  /-- Following the places taken ends, from any node on. -/
  ends : ∀ id, ∃ last, doc.Ends id last
  /-- A parsed node without a mark has the children it was parsed with, and none of them has a mark. -/
  clean : ∀ {p}, (doc.node p).isWritten = false → (doc.node p).dirty = false →
    doc.children p = (doc.node p).firstChildren ∧ ∀ c ∈ doc.children p, (doc.node c).dirty = false

theorem Forest.acyclic (forest : doc.Forest) (id : NodeId) :
    ¬ Relation.TransGen (fun p c => c ∈ doc.children p) id id := by
  obtain ⟨rank, rises⟩ := forest.ranked
  have above : ∀ {x y}, Relation.TransGen (fun p c => c ∈ doc.children p) x y → rank x < rank y := by
    intro x y path
    induction path with
    | single child => exact rises child
    | tail _ child ih => exact Nat.lt_trans ih (rises child)
  exact fun circle => Nat.lt_irrefl _ (above circle)

/-- The end is a node of the document, too. -/
theorem Sound.ends_present (sound : doc.Sound) {id : NodeId} (present : id < doc.nodes.size) :
    ∃ last < doc.nodes.size, doc.Ends id last := by
  obtain ⟨last, ends⟩ := sound.ends id
  by_cases same : id = last
  · exact ⟨last, same ▸ present, ends⟩
  · obtain ⟨_, took⟩ := ends.taken same
    exact ⟨last, sound.takenLt took, ends⟩

theorem Sound.consistent (sound : doc.Sound) : doc.Consistent where
  listedOnce parent := List.count_eq_one_of_mem (sound.forest.distinct _) (sound.forest.parentChild parent)
  childParent := sound.forest.childParent
  acyclic := sound.forest.acyclic
  arity parsed other := (sound.kept parsed other).length_eq
  ends := sound.ends
  clean := sound.clean

/-- A document that later ones grew from has its root and its file in common with them. -/
theorem Extends.file (ext : Extends first doc) (present : first.root < first.nodes.size)
    (listed : 0 < first.buffers.length) :
    doc.root = first.root ∧ (doc.node doc.root).origin = (first.node first.root).origin ∧ doc.source = first.source := by
  refine ⟨ext.root, ?_, ext.buffer listed⟩
  rw [ext.root]
  exact ext.origin _ present

/-- A document without a mark at its root prints as the file that it was parsed from. -/
theorem Reached.print_unmodified [Reader] (reached : Reached first doc)
    (file : Document.parse dialect source = .ok first)
    (wide : ∀ program, Reader.program? dialect source = some program → program.span.start ≤ program.span.stop)
    (same : doc.isModified = false) : doc.print = source := by
  obtain ⟨texts, _, root, present⟩ := parse_buffers file
  obtain ⟨program, read, parsed⟩ := parse_program file
  obtain ⟨indent, moves⟩ := reached.moves (parse_sound file)
  have start := (parse_sound file).withFallbackIndent indent
  obtain ⟨rootIs, originIs, sourceIs⟩ := (moves.toExtends start).file
    (show (first.withFallbackIndent indent).root < _ from root ▸ present)
    (show 0 < (first.withFallbackIndent indent).buffers.length by simp [withFallbackIndent, texts])
  have origin : (doc.node doc.root).origin = .parsed 0 program.span := by
    rw [originIs]
    exact (congrArg (fun id => (first.node id).origin) root).trans parsed
  have known : doc.source = source := by
    rw [sourceIs]
    show first.buffer 0 = source
    rw [buffer, texts]
    rfl
  rw [print_eq]
  simp only [Node.span?, origin]
  rw [(reached.sound file).forest.render_clean origin same, ← known]
  exact Text.take_slice_drop doc.source (wide program read)

end Document

namespace ModelSet
variable {doc : Document}

/-- Renaming changes what the models of a set are called, not which object literals they are. -/
theorem renameAll_objects (models : List Model) (space : List Char) (doc : Document) :
    ((renameAll space models).run doc).1.1.map Model.object = models.map Model.object := by
  induction models generalizing doc with
  | nil => rfl
  | cons model rest ih =>
    rw [renameAll, StateT.run_bind]
    rcases StateT.run (ExceptT.run (model.rename space)) doc with ⟨result, doc'⟩
    cases result with
    | error e => rfl
    | ok _ => exact congrArg (model.object :: ·) (ih doc')

theorem apply_objects [Reader] (set : ModelSet) (edit : ModelEdit) :
    (set.apply edit).1.models.map Model.object = set.models.map Model.object := by
  cases edit with
  | setNamespace space => exact renameAll_objects set.models space set.doc
  | setState _ => rfl
  | addEntry _ _ _ => rfl
  | setEntry _ _ _ => rfl
  | removeEntry _ _ => rfl

end ModelSet

namespace Document
variable {doc first : Document} {dialect : Dialect} {source : List Char}

/-- The nodes of every document that edits lead to are consistent, and without a mark at its root it prints as the file,
    a part of which the root was read from. The sets that are found in it, and those that further edits make of them, are
    sets of object literals at any later time, whether or not these are still part of the tree; and no edit of such a set
    fails because a node has no parent or is no object literal. -/
theorem reached_consistent [Reader] (file : Document.parse dialect source = .ok first) (reached : Reached first doc) :
    doc.Consistent ∧
      ((∀ program, Reader.program? dialect source = some program → program.span.start ≤ program.span.stop) →
        doc.isModified = false → doc.print = source) ∧
      (∀ filter models, doc.models filter = .ok models → ∀ m ∈ models, doc.role m.object = .object) ∧
      ∀ models : List Model, (∀ m ∈ models, doc.role m.object = .object) → ∀ edit,
        (∀ object, doc.role object = .object → ((ModelSet.mk doc models).apply edit).1.doc.role object = .object) ∧
        ((ModelSet.mk doc models).apply edit).1.models.map Model.object = models.map Model.object ∧
        ∀ failure, ((ModelSet.mk doc models).apply edit).2 = .error failure →
          failure ≠ .mismatch .replacesDetached ∧ failure ≠ .mismatch .notAttached ∧
          failure ≠ .mismatch .removesDetached ∧ ∀ kind, failure ≠ .mismatch (.noObject kind) := by
  have sound := reached.sound file
  refine ⟨sound.consistent, reached.print_unmodified file, fun filter models found => models_objects found, ?_⟩
  intro models objects edit
  obtain ⟨moves, intact⟩ := ModelSet.apply_does sound objects edit
  refine ⟨fun object role => ?_, ModelSet.apply_objects _ edit, fun failure failed => ?_⟩
  · rw [(moves.toExtends sound).role (lt_of_role role (by decide))]
    exact role
  · have fits := intact failure failed
    refine ⟨?_, ?_, ?_, fun kind => ?_⟩ <;>
      · rintro rfl
        cases fits

/-- The model of the sample file, edited once more, has no entry `c` to lose; that is all that can be wrong with it. -/
theorem reached_consistent_sample :
    (sampleEdited (.setEntry .reducers ['b'] ['2'])).Consistent ∧
      ∃ failure, (@ModelSet.apply sampleReader ⟨sampleEdited (.setEntry .reducers ['b'] ['2']), [⟨5, ['a']⟩]⟩
        (.removeEntry .reducers ['c'])).2 = .error failure ∧ failure ≠ .mismatch .removesDetached := by
  obtain ⟨consistent, _, _, edits⟩ := @reached_consistent _ _ _ _ sampleReader sampleFile_parsed
    (sampleEdited_reached (.setEntry .reducers ['b'] ['2']))
  have failed : (@ModelSet.apply sampleReader ⟨sampleEdited (.setEntry .reducers ['b'] ['2']), [⟨5, ['a']⟩]⟩
      (.removeEntry .reducers ['c'])).2 = .error (.entryNotFound ['a'] "reducer" ['c']) := by decide +kernel
  obtain ⟨_, _, intact⟩ := edits [⟨5, ['a']⟩] (by decide +kernel) (.removeEntry .reducers ['c'])
  exact ⟨consistent, _, failed, (intact _ failed).2.2.1⟩

end Document

end StoreModels
