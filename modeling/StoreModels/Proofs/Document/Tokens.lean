import StoreModels.Proofs.Document.Plain

/-!
What becomes of tokens in edits: nothing. They carry no marks, so a token that was read prints as it was read, and one
that was written prints as the text it was written with.
-/
namespace StoreModels
open Syntax (Reader Tree)

namespace Document
variable {doc doc' : Document} {x p old : NodeId} {tokens : Syntax.Role → Bool}

/-- Tokens carry no marks, and those that edits wrote have a text and no parts. -/
structure Settled (doc : Document) (tokens : Syntax.Role → Bool) : Prop where
  clean : ∀ {x}, tokens (doc.role x) = true → (doc.node x).dirty = false
  written : ∀ {x}, tokens (doc.role x) = true → (doc.node x).isWritten = true →
    doc.children x = [] ∧ ∃ text, (doc.node x).origin = .written (some text)

namespace Settled

theorem withBuffer (settled : doc.Settled tokens) (text : List Char) :
    Settled { doc with buffers := doc.buffers ++ [text] } tokens :=
  ⟨settled.clean, settled.written⟩

variable (among : ∀ role, tokens role = true → role.isToken = true)
include among

/-- What is not there is no token. -/
theorem missing (beyond : doc.nodes.size ≤ x) : tokens (doc.role x) = false := by
  rw [role, node_beyond beyond]
  exact not_token among rfl

theorem empty (none : doc.nodes.size = 0) : doc.Settled tokens := by
  refine ⟨fun {x} token => ?_, fun {x} token _ => ?_⟩ <;>
  · rw [missing among (none ▸ Nat.zero_le x)] at token
    cases token

/-- New nodes behind the others. -/
theorem prolong (settled : doc.Settled tokens) (longer : Prolongs doc doc')
    (new : ∀ x, doc.nodes.size ≤ x → x < doc'.nodes.size → tokens (doc'.role x) = true →
      (doc'.node x).dirty = false ∧ ((doc'.node x).isWritten = true →
        doc'.children x = [] ∧ ∃ text, (doc'.node x).origin = .written (some text))) : doc'.Settled tokens := by
  have each : ∀ x, tokens (doc'.role x) = true → (doc'.node x).dirty = false ∧ ((doc'.node x).isWritten = true →
      doc'.children x = [] ∧ ∃ text, (doc'.node x).origin = .written (some text)) := by
    intro x token
    by_cases lt : x < doc.nodes.size
    · rw [role, longer.node x lt] at token
      rw [children, longer.node x lt]
      exact ⟨settled.clean token, settled.written token⟩
    · by_cases present : x < doc'.nodes.size
      · exact new x (Nat.le_of_not_lt lt) present token
      · rw [missing among (Nat.le_of_not_lt present)] at token
        cases token
  exact ⟨fun token => (each _ token).1, fun token => (each _ token).2⟩

theorem writeLeaf (settled : doc.Settled tokens) (kind : String) (text : List Char) :
    (doc.writeLeaf kind text).1.Settled tokens := by
  refine settled.prolong among (writeLeaf_prolongs doc kind text) fun x le lt _ => ?_
  have top : x = doc.nodes.size := by
    rw [Document.writeLeaf, size_insert] at lt
    omega
  have is : (doc.writeLeaf kind text).1.node x = .written kind (some text) := by
    rw [writeLeaf_node, if_pos top]
  rw [children, is]
  exact ⟨rfl, fun _ => ⟨rfl, text, rfl⟩⟩

theorem adopt {buffer : BufferId} {tree : Tree} (settled : doc.Settled tokens) (adopted : Adopted doc doc' buffer tree) :
    doc'.Settled tokens := by
  refine settled.prolong among adopted.longer fun x le lt _ => ?_
  obtain ⟨t, _, mirrors⟩ := adopted.mirrors x le lt
  refine ⟨mirrors.clean, fun made => ?_⟩
  simp only [Node.isWritten, Node.buffer?, mirrors.origin] at made
  cases made

theorem duplicate {twin : NodeId → NodeId} (settled : doc.Settled tokens) (copied : Duplicated doc doc' twin old) :
    doc'.Settled tokens := by
  refine settled.prolong among copied.longer fun x le lt token => ?_
  have alike := copied.twins x le lt
  rw [role, Node.role, alike.kind] at token
  rw [alike.dirty, alike.origin, Node.isWritten, Node.buffer?, alike.origin]
  refine ⟨settled.clean token, fun made => ?_⟩
  obtain ⟨none, text⟩ := settled.written token made
  exact ⟨List.map_eq_nil_iff.mp (alike.children.trans none), text⟩

theorem join {kind : String} {parts : List (Option String × NodeId)} (settled : doc.Settled tokens)
    (joined : Joined doc doc' kind parts) (whole : tokens (Syntax.Role.ofKind kind) = false) : doc'.Settled tokens := by
  have each : ∀ x, tokens (doc'.role x) = true → (doc'.node x).dirty = false ∧ ((doc'.node x).isWritten = true →
      doc'.children x = [] ∧ ∃ text, (doc'.node x).origin = .written (some text)) := by
    intro x token
    rcases joined.cases x with lt | rfl | missing
    · rw [joined.toExtends.role lt] at token
      rw [joined.children_old lt, joined.node_old lt]
      exact ⟨settled.clean token, settled.written token⟩
    · rw [role, joined.top] at token
      have is : Node.role { Node.written kind none with children := parts.map Prod.snd } = Syntax.Role.ofKind kind := rfl
      rw [is, whole] at token
      cases token
    · rw [role, missing, show tokens Node.missing.role = false from not_token among rfl] at token
      cases token
  exact ⟨fun token => (each _ token).1, fun token => (each _ token).2⟩

/-- A change below a node that is no token and no part of one. -/
theorem edit {gone fresh : Option NodeId} (settled : doc.Settled tokens) (atomic : doc'.Atomic tokens)
    (edited : Edited doc doc' p gone fresh) (whole : tokens (doc.role p) = false)
    (apart : ∀ {x}, tokens (doc.role x) = true → p ∉ doc.children x) (lt : p < doc.nodes.size) : doc'.Settled tokens := by
  have each : ∀ x, tokens (doc'.role x) = true → x < doc.nodes.size ∧ tokens (doc.role x) = true ∧ x ≠ p := by
    intro x token
    by_cases present : x < doc.nodes.size
    · rw [edited.ext.role present] at token
      exact ⟨present, token, fun same => by rw [same, whole] at token; cases token⟩
    · rw [missing among (edited.hung.size ▸ Nat.le_of_not_lt present)] at token
      cases token
  constructor
  · intro x token
    obtain ⟨present, old, other⟩ := each x token
    have outside : ¬ doc'.Below x p := by
      intro below
      rcases Relation.ReflTransGen.cases_head below with same | ⟨c, edge, down⟩
      · exact other same
      · rcases Relation.ReflTransGen.cases_head down with rfl | ⟨d, edge', _⟩
        · rw [edited.hung.children x other] at edge
          exact apart old edge
        · rw [(atomic.leaves token edge).1] at edge'
          cases edge'
    rw [Bool.eq_false_iff, ne_eq, edited.dirty x, settled.clean old]
    simpa using outside
  · intro x token made
    obtain ⟨present, old, other⟩ := each x token
    rw [Node.isWritten, Node.buffer?, edited.ext.origin x present] at made
    rw [edited.hung.children x other, edited.ext.origin x present]
    exact settled.written old made

end Settled

/-- Every move leaves tokens as they are. -/
theorem Move.settled [Reader] (among : ∀ role, tokens role = true → role.isToken = true) (move : Move doc doc')
    (sound : doc.Sound) (atomic : doc.Atomic tokens) (atomic' : doc'.Atomic tokens) (settled : doc.Settled tokens) :
    doc'.Settled tokens := by
  cases move with
  | leaf kind text _ => exact settled.writeLeaf among kind text
  | adopt snippet read =>
    obtain ⟨_, tree, _, adopted⟩ := parseExpression_adopted read
    exact (settled.withBuffer _).adopt among adopted
  | copy present =>
    obtain ⟨_, twin, copied⟩ := duplicate_duplicated sound.forest present
    exact settled.duplicate among copied
  | join kind parts whole distinct free _ =>
    exact settled.join among (writeNode_joined doc kind parts distinct fun c member => (free c member).lt).2
      (not_token among whole)
  | replace parent free apart may run =>
    have replaced := Replaced.of_ok sound.forest parent free apart run
    obtain ⟨whole, outside⟩ := may.outside among atomic sound.forest parent
    exact settled.edit among atomic' replaced.edited whole outside
      (lt_of_mem_children (sound.forest.parentChild parent))
  | append object free apart run =>
    have appended := Appended.of_ok sound.forest object free apart run
    exact settled.edit among atomic' appended.edited (not_token among (by rw [object]; rfl))
      (atomic.object_outside object) (lt_of_role object (by decide))
  | remove parent object run =>
    have removed := Removed.of_ok sound.forest parent object run
    exact settled.edit among atomic' removed.edited (not_token among (by rw [object]; rfl))
      (atomic.object_outside object) (lt_of_role object (by decide))

end Document

end StoreModels
