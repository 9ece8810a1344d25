import StoreModels.Proofs.Record.Snippets

/-!
What edits bring into a file prints as. The tree of a snippet prints as the snippet, moved over to where it stands; a
pair that was written above such a tree prints as its key, a colon and the tree. Both go on to do so as long as nothing
in them changes.
-/
namespace StoreModels
open Syntax (Reader Span)
open Text (slice)

namespace Document
variable {doc doc' : Document} {zone : NodeId → Prop} {loose : List NodeId} {name source : List Char} {quote : Char}
  {value pair : NodeId}

/-- A node brings the text of a snippet: it was parsed as that text, which is not in the file, and has no mark. -/
structure Brings (doc : Document) (source : List Char) (value : NodeId) : Prop where
  parsed : ∃ buffer span, (doc.node value).origin = .parsed buffer span ∧ buffer ≠ 0 ∧
    slice (doc.buffer buffer) span.start span.stop = source
  clean : (doc.node value).dirty = false

namespace Brings

theorem lt (brings : doc.Brings source value) : value < doc.nodes.size := by
  obtain ⟨buffer, span, origin, _⟩ := brings.parsed
  by_contra beyond
  rw [node_beyond (Nat.le_of_not_lt beyond)] at origin
  cases origin

theorem calm (brings : doc.Brings source value) (calm : Calm doc doc' zone loose) (sound : doc.Sound)
    (apart : doc.Apart zone value) : doc'.Brings source value where
  parsed := by
    obtain ⟨buffer, span, origin, other, text⟩ := brings.parsed
    refine ⟨buffer, span, (calm.ext.origin value brings.lt).trans origin, other, ?_⟩
    rw [calm.ext.buffer (sound.bufferLt origin), text]
  clean := (calm.dirty value brings.lt apart).trans brings.clean

/-- A copy brings the same text. -/
theorem copy {twin : NodeId → NodeId} (brings : doc.Brings source value) (copied : Duplicated doc doc' twin value)
    (sound : doc.Sound) : doc'.Brings source doc.nodes.size := by
  have more := (copied.sprouted.topLt doc.nodes.size (by simp)).2
  have alike := copied.twins doc.nodes.size (Nat.le_refl _) more
  have origins := alike.origin
  rw [copied.original] at origins
  obtain ⟨buffer, span, origin, other, text⟩ := brings.parsed
  refine ⟨⟨buffer, span, origins.trans origin, other, ?_⟩, ?_⟩
  · rw [copied.longer.toExtends.buffer (sound.bufferLt origin), text]
  · rw [alike.dirty, copied.original, brings.clean]

/-- The tree of a snippet brings the text that it was read as. -/
theorem read [Reader] {snippet : List Char} (sound : doc.Sound) (texts : 0 < doc.buffers.length)
    (read : doc.parseExpression snippet = .ok (doc', value)) : doc'.Brings (doc'.text value) value := by
  have moved : Move doc doc' := .adopt snippet read
  obtain ⟨rfl, tree, _, adopted⟩ := parseExpression_adopted read
  have more : doc.nodes.size < doc'.nodes.size := (adopted.sprouted.topLt _ (by simp)).2
  obtain ⟨_, _, mirrors⟩ := adopted.mirrors doc.nodes.size (Nat.le_refl _) more
  refine ⟨⟨doc.buffers.length, tree.span, adopted.origin, Nat.ne_of_gt texts, ?_⟩, mirrors.clean⟩
  exact ((moved.sound sound).forest.printNode_clean adopted.origin mirrors.clean).symm

/-- On its own, what is brought prints as the text. -/
theorem printNode (brings : doc.Brings source value) (forest : doc.Forest) : doc.printNode value = source := by
  obtain ⟨buffer, span, origin, _, text⟩ := brings.parsed
  rw [forest.printNode_clean origin brings.clean, text]

/-- What is brought from elsewhere is moved over to where it stands. -/
theorem printChild (brings : doc.Brings source value) (forest : doc.Forest) (indent : List Char) :
    doc.printChild doc.render value indent 0 = Text.reindent source indent doc.newline.text := by
  obtain ⟨buffer, span, origin, other, text⟩ := brings.parsed
  have place : (doc.node value).buffer? = some buffer := by simp [Node.buffer?, origin]
  simp only [Document.printChild, place, other, if_false, forest.render_clean origin brings.clean, text]

end Brings

/-- A written pair spells a name and brings the text of a snippet as its value. -/
def Spells (doc : Document) (name : List Char) (quote : Char) (source : List Char) (pair : NodeId) : Prop :=
  ∃ value, doc.Heads name quote pair value ∧ doc.Brings source value

namespace Spells

theorem role (spells : doc.Spells name quote source pair) : doc.role pair = .pair := by
  obtain ⟨_, heads, _⟩ := spells
  exact heads.role

theorem calm (spells : doc.Spells name quote source pair) (calm : Calm doc doc' zone loose) (sound : doc.Sound)
    (apart : doc.Apart zone pair) : doc'.Spells name quote source pair := by
  obtain ⟨value, heads, brings⟩ := spells
  exact ⟨value, heads.calm calm sound.forest apart.outside fun c child _ => (apart.below (.child child)).outside,
    brings.calm calm sound (apart.below (.child heads.value_child))⟩

/-- A written pair prints as its key, a colon and its value, moved over to where the pair stands. -/
theorem printChild (spells : doc.Spells name quote source pair) (forest : doc.Forest) (indent : List Char) :
    doc.printChild doc.render pair indent 0 =
      Literal.keyText name quote ++ [':', ' '] ++ Text.reindent source indent doc.newline.text := by
  obtain ⟨value, heads, brings⟩ := spells
  obtain ⟨key, children, isKey⟩ := heads.parts
  have place : (doc.node pair).buffer? = none := by simp [Node.buffer?, heads.origin]
  have keyPlace : (doc.node key).buffer? = none := by simp [Node.buffer?, isKey.origin]
  have noParts : (doc.node key).children.isEmpty = true := List.isEmpty_iff.mpr isKey.leaf
  have keyShown : doc.render key indent 0 = Literal.keyText name quote := by
    rw [forest.render_eq]
    simp only [printWith, isKey.origin, noParts, if_true]
  have role : (doc.node pair).role = .pair := heads.role
  have parts : (doc.node pair).children = [key, value] := children
  simp only [Document.printChild, place]
  rw [forest.render_eq]
  simp only [printWith, heads.origin, printWritten, role, parts, List.map_cons, List.map_nil, joinWith,
    brings.printChild forest]
  simp only [Document.printChild, keyPlace, keyShown]

end Spells

/-- A pair that was written above the tree of a snippet spells its name and brings the snippet. -/
theorem PairWritten.spells (made : PairWritten doc doc' name quote value) (steady : Steady doc doc') (sound : doc.Sound)
    (free : doc.Free value) (brings : doc.Brings source value) :
    doc'.Spells name quote source (doc.nodes.size + 1) :=
  ⟨value, made.heads, brings.calm (made.calm steady free) sound (apart_nowhere doc value)⟩

end Document

end StoreModels
