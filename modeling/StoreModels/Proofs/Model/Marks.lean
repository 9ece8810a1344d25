import StoreModels.Proofs.Model.Reached
import StoreModels.Proofs.Document.Render

/-!
Marks decide how a node is printed, never what is printed. A node that is marked though nothing below it has changed is
taken apart and put together again, and gives back the text it was parsed from.
-/
namespace StoreModels
open Syntax (Dialect Span Reader sampleReader)
open Text (slice)

namespace Document
variable {doc first : Document} {dialect : Dialect} {source : List Char}

/-- The document with marks on some more nodes. -/
def touch (doc : Document) (more : NodeId → Bool) : Document :=
  { doc with nodes := doc.nodes.mapIdx fun id node => { node with dirty := node.dirty || more id } }

theorem node_touch (doc : Document) (more : NodeId → Bool) (x : NodeId) :
    (doc.touch more).node x =
      if x < doc.nodes.size then { doc.node x with dirty := (doc.node x).dirty || more x } else .missing := by
  by_cases lt : x < doc.nodes.size
  · rw [if_pos lt]
    simp [touch, node_eq, Array.getElem?_mapIdx, Array.getElem?_eq_getElem lt]
  · rw [if_neg lt]
    exact node_beyond (by simpa [touch] using Nat.le_of_not_lt lt)

theorem touch_same (doc : Document) (more : NodeId → Bool) : SameButMarks doc (doc.touch more) where
  rest := rfl
  size := by simp [touch]
  node x := by
    rw [node_touch]
    split
    · rfl
    next beyond => rw [node_beyond (Nat.le_of_not_lt beyond)]

theorem dirty_touch (doc : Document) (more : NodeId → Bool) (x : NodeId) (marked : (doc.node x).dirty = true) :
    ((doc.touch more).node x).dirty = true := by
  rw [node_touch]
  split
  · simp [marked]
  next beyond =>
    rw [node_beyond (Nat.le_of_not_lt beyond)] at marked
    cases marked

theorem print_eq (doc : Document) :
    doc.print =
      match (doc.node doc.root).span? with
      | none => doc.printNode doc.root
      | some span => doc.source.take span.start ++ doc.render doc.root [] 0 ++ doc.source.drop span.stop := rfl

theorem printNode_eq (doc : Document) (id : NodeId) :
    doc.printNode id = doc.render id [] ((doc.node id).buffer?.getD 0) := rfl

/-- The text of a file is made from its source and the text of its root alone. -/
theorem print_congr {doc' : Document} (root : doc'.root = doc.root)
    (origin : (doc'.node doc.root).origin = (doc.node doc.root).origin) (text : doc'.source = doc.source)
    (shown : doc'.render doc.root [] 0 = doc.render doc.root [] 0) : doc'.print = doc.print := by
  rw [print_eq, print_eq, printNode_eq, printNode_eq, root, text]
  simp only [Node.span?, Node.buffer?, origin]
  cases (doc.node doc.root).origin with
  | written text => simpa using shown
  | parsed buffer span => simp [shown]

/-- A freshly parsed file prints as its source. -/
theorem print_parsed [Reader] (file : Document.parse dialect source = .ok first) (shaped : first.Shaped) :
    first.print = source := by
  obtain ⟨buffers, _, root, present⟩ := parse_buffers file
  obtain ⟨tree, mirrors⟩ := parse_mirrors file present
  have origin := mirrors.origin
  have source_eq : first.buffer 0 = source := by simp [buffer, buffers]
  obtain ⟨_, _, fits⟩ := shaped.laid origin
  rw [print_eq, root]
  simp only [Node.span?, origin]
  rw [(parse_sound file).forest.render_clean origin mirrors.clean, Document.source, source_eq]
  exact Text.take_slice_drop source fits.1.le

theorem Sound.printNode_touch (sound : doc.Sound) (shaped : doc.Shaped) (more : NodeId → Bool) (n : NodeId) :
    (doc.touch more).printNode n = doc.printNode n := by
  have same := touch_same doc more
  rw [printNode_eq, printNode_eq, (same.alike n).buffer?, sound.render_marked shaped same (doc.dirty_touch more)]

theorem Sound.whole_touch (sound : doc.Sound) (shaped : doc.Shaped) (more : NodeId → Bool) :
    (doc.touch more).print = doc.print := by
  have same := touch_same doc more
  have root : (doc.touch more).root = doc.root := rfl
  have text : (doc.touch more).source = doc.source := rfl
  rw [print_eq, print_eq, root, text, (same.alike doc.root).span?, sound.printNode_touch shaped more,
    sound.render_marked shaped same (doc.dirty_touch more)]

/-- Setting further marks changes the text of no document that edits lead to and of none of its nodes. A parsed node
    without a mark prints as it was parsed even if it gets one; so a parsed file with a mark on every node prints as its
    source. -/
theorem print_touch [Reader] (file : Document.parse dialect source = .ok first) (reached : Reached first doc)
    (readable : doc.Readable) (more : NodeId → Bool) :
    (doc.touch more).print = doc.print ∧ (∀ n, (doc.touch more).printNode n = doc.printNode n) ∧
      (∀ n buffer span, (doc.node n).origin = .parsed buffer span → (doc.node n).dirty = false →
        (doc.touch more).printNode n = slice (doc.buffer buffer) span.start span.stop) ∧
      (first.touch fun _ => true).print = source := by
  have sound := reached.sound file
  have shaped := reached.shaped file readable
  obtain ⟨indent, moves⟩ := reached.moves (parse_sound file)
  have start := readable.of_extends (moves.toExtends ((parse_sound file).withFallbackIndent indent))
  have shaped' : first.Shaped := parse_shaped file start
  refine ⟨sound.whole_touch shaped more, sound.printNode_touch shaped more, fun n buffer span parsed clean => ?_, ?_⟩
  · rw [sound.printNode_touch shaped more, printNode_eq, sound.forest.render_clean parsed clean]
  · rw [(parse_sound file).whole_touch shaped', print_parsed file shaped']

/-- The sample file, its reducer exchanged, prints the same with a mark on every node. -/
theorem print_touch_sample :
    ((sampleEdited (.setEntry .reducers ['b'] ['2'])).touch fun _ => true).print =
        (sampleEdited (.setEntry .reducers ['b'] ['2'])).print ∧
      (sampleEdited (.setEntry .reducers ['b'] ['2'])).print = "x=\x7bnamespace:'a',reducers:\x7bb:2\x7d\x7d".toList := by
  have touched := @print_touch _ _ _ _ sampleReader sampleFile_parsed (sampleEdited_reached (.setEntry .reducers ['b'] ['2']))
    (fun text _ => (Syntax.sampleReader_regular _ text).1) fun _ => true
  exact ⟨touched.1, by decide +kernel⟩

end Document

end StoreModels
