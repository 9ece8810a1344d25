import StoreModels.Proofs.Document.Moves

/-!
Tokens in documents: the nodes below one are its leaves, and no edit ever changes them. Which roles count as tokens is
left open as far as they are among the ones that may; mostly all of them do.
-/
namespace StoreModels
open Syntax (Role Reader Tree)

namespace Document
variable {doc doc' : Document} {x y c p old new : NodeId} {tokens : Role → Bool}

/-- The nodes of some roles have no other parts than leaves that say nothing. -/
structure Atomic (doc : Document) (tokens : Role → Bool) : Prop where
  leaves : ∀ {x c}, tokens (doc.role x) = true → c ∈ doc.children x →
    doc.children c = [] ∧ (doc.role c).isMute = true

/-- The tokens of a document have no other parts than leaves that say nothing. -/
abbrev Plain (doc : Document) : Prop := doc.Atomic Role.isToken

/-- What says nothing plays no other role. -/
theorem not_mute {role : Role} (mute : (doc.role c).isMute = true) (loud : role.isMute = false) : doc.role c ≠ role := by
  rintro rfl
  rw [mute] at loud
  cases loud

/-- Below a token there are no object literals and no pairs. -/
theorem Plain.below (plain : doc.Plain) (token : (doc.role x).isToken = true) (below : doc.Below x y) :
    doc.role y ≠ .object ∧ doc.role y ≠ .pair := by
  rcases Relation.ReflTransGen.cases_head below with rfl | ⟨c, edge, down⟩
  · constructor <;> intro is <;> rw [is] at token <;> cases token
  · obtain ⟨bare, other⟩ := plain.leaves token edge
    rcases Relation.ReflTransGen.cases_head down with rfl | ⟨d, edge', _⟩
    · exact ⟨not_mute other rfl, not_mute other rfl⟩
    · rw [bare] at edge'
      cases edge'

namespace Atomic

theorem empty (none : doc.nodes.size = 0) : doc.Atomic tokens := by
  refine ⟨fun {x c} _ member => ?_⟩
  rw [children, node_beyond (none ▸ Nat.zero_le x)] at member
  cases member

theorem withBuffer (atomic : doc.Atomic tokens) (text : List Char) :
    Atomic { doc with buffers := doc.buffers ++ [text] } tokens :=
  ⟨atomic.leaves⟩

/-- New nodes behind the others. -/
theorem prolong (atomic : doc.Atomic tokens) (forest : doc.Forest) (longer : Prolongs doc doc')
    (new : ∀ {x c}, doc.nodes.size ≤ x → tokens (doc'.role x) = true → c ∈ doc'.children x →
      doc'.children c = [] ∧ (doc'.role c).isMute = true) : doc'.Atomic tokens := by
  refine ⟨fun {x c} token member => ?_⟩
  by_cases lt : x < doc.nodes.size
  · have same : ∀ y < doc.nodes.size, doc'.children y = doc.children y := fun y lt => by
      rw [children, longer.node y lt, children]
    rw [same x lt] at member
    rw [longer.toExtends.role lt] at token
    have present := forest.childLt member
    rw [same c present, longer.toExtends.role present]
    exact atomic.leaves token member
  · exact new (Nat.le_of_not_lt lt) token member

/-- A change of the children of one node that is no token and no part of one. -/
theorem edit (atomic : doc.Atomic tokens) (sound : doc.Sound) {gone fresh : Option NodeId}
    (edited : Edited doc doc' p gone fresh) (whole : tokens (doc.role p) = false)
    (apart : ∀ {x}, tokens (doc.role x) = true → p ∉ doc.children x) : doc'.Atomic tokens := by
  have size := edited.hung.size
  refine ⟨fun {x c} token member => ?_⟩
  have lt : x < doc.nodes.size := size ▸ lt_of_mem_children member
  rw [edited.ext.role lt] at token
  have other : x ≠ p := fun same => by
    rw [same, whole] at token
    cases token
  rw [edited.hung.children x other] at member
  have inner : c ≠ p := fun same => apart token (same ▸ member)
  rw [edited.hung.children c inner, edited.ext.role (sound.forest.childLt member)]
  exact atomic.leaves token member

end Atomic

/-! ## Tokens that are read, copied or put into something -/

/-- A node that was read as a part of a tree has plain leaves if it is a token. -/
theorem Mirrors.atomic {buffer : BufferId} {tree t : Tree} (mirrors : doc.Mirrors buffer x t)
    (leaves : tree.Atomic tokens) (below : t ∈ tree.subtrees) (token : tokens (doc.role x) = true) (member : c ∈ doc.children x) :
    doc.children c = [] ∧ (doc.role c).isMute = true := by
  rw [role, Node.role, mirrors.kind] at token
  obtain ⟨u, listed, reads⟩ := forall₂_mem_left mirrors.children member
  obtain ⟨bare, other⟩ := leaves t below token u listed
  refine ⟨?_, ?_⟩
  · have count := reads.count
    rw [bare] at count
    exact List.length_eq_zero_iff.mp count
  · rw [role, Node.role, reads.kind]
    exact other

theorem Atomic.writeLeaf (atomic : doc.Atomic tokens) (sound : doc.Sound) (kind : String) (text : List Char) :
    (doc.writeLeaf kind text).1.Atomic tokens := by
  refine atomic.prolong sound.forest (writeLeaf_prolongs doc kind text) fun {x c} le token member => ?_
  rw [children, writeLeaf_node] at member
  split at member
  · cases member
  · rw [node_beyond le] at member
    cases member

theorem Atomic.adopt {buffer : BufferId} {tree : Tree} (atomic : doc.Atomic tokens) (sound : doc.Sound)
    (adopted : Adopted doc doc' buffer tree) (leaves : tree.Atomic tokens) : doc'.Atomic tokens := by
  refine atomic.prolong sound.forest adopted.longer fun {x c} le token member => ?_
  obtain ⟨t, below, mirrors⟩ := adopted.mirrors x le (lt_of_mem_children member)
  exact mirrors.atomic leaves below token member

theorem Atomic.duplicate {twin : NodeId → NodeId} (atomic : doc.Atomic tokens) (sound : doc.Sound)
    (copied : Duplicated doc doc' twin old) : doc'.Atomic tokens := by
  refine atomic.prolong sound.forest copied.longer fun {x c} le token member => ?_
  have alike := copied.twins x le (lt_of_mem_children member)
  obtain ⟨gt, lt, _⟩ := copied.sprouted.child x le (lt_of_mem_children member) c member
  have below := copied.twins c (Nat.le_trans le (Nat.le_of_lt gt)) lt
  rw [role, Node.role, alike.kind] at token
  have listed : twin c ∈ doc.children (twin x) := alike.children ▸ List.mem_map_of_mem member
  obtain ⟨bare, other⟩ := atomic.leaves token listed
  refine ⟨?_, ?_⟩
  · have none := below.children
    rw [bare] at none
    exact List.map_eq_nil_iff.mp none
  · rw [role, Node.role, below.kind]
    exact other

theorem Atomic.join {kind : String} {parts : List (Option String × NodeId)} (atomic : doc.Atomic tokens) (sound : doc.Sound)
    (joined : Joined doc doc' kind parts) (whole : tokens (Role.ofKind kind) = false) : doc'.Atomic tokens := by
  refine ⟨fun {x c} token member => ?_⟩
  rcases joined.cases x with lt | rfl | missing
  · rw [joined.children_old lt] at member
    rw [joined.toExtends.role lt] at token
    have present := sound.forest.childLt member
    rw [joined.children_old present, joined.toExtends.role present]
    exact atomic.leaves token member
  · rw [role, joined.top] at token
    have is : Node.role { Node.written kind none with children := parts.map Prod.snd } = Role.ofKind kind := rfl
    rw [is, whole] at token
    cases token
  · rw [children, missing] at member
    cases member

/-- No object literal is a part of a token. -/
theorem Atomic.object_outside (atomic : doc.Atomic tokens) (object : doc.role p = .object)
    (token : tokens (doc.role x) = true) : p ∉ doc.children x :=
  fun member => not_mute (atomic.leaves token member).2 rfl object

section
variable (among : ∀ role, tokens role = true → role.isToken = true)
include among

/-- What is no token at all is none of the tokens at hand. -/
theorem not_token {role : Role} (whole : role.isToken = false) : tokens role = false := by
  by_contra token
  rw [among role (by simpa using token)] at whole
  cases whole

/-- What may be replaced is no part of a token, and neither is its parent. -/
theorem Replaceable.outside (may : doc.Replaceable p old) (atomic : doc.Atomic tokens) (forest : doc.Forest)
    (parent : doc.parent? old = some p) :
    tokens (doc.role p) = false ∧ ∀ {x}, tokens (doc.role x) = true → p ∉ doc.children x := by
  have listed := forest.parentChild parent
  constructor
  · by_contra token
    have token : tokens (doc.role p) = true := by simpa using token
    have mute := (atomic.leaves token listed).2
    rcases may with ⟨pair, _⟩ | is | is | ⟨is, _⟩
    · have := among _ token
      rw [pair] at this
      cases this
    all_goals exact not_mute mute rfl is
  · intro x token member
    rw [(atomic.leaves token member).1] at listed
    cases listed

/-- Every move keeps tokens as they are. -/
theorem Move.atomic [Reader] (move : Move doc doc') (sound : doc.Sound)
    (learns : doc.Learns doc' (Reader.Atomic tokens)) (atomic : doc.Atomic tokens) : doc'.Atomic tokens := by
  cases move with
  | leaf kind text _ => exact atomic.writeLeaf sound kind text
  | adopt snippet read =>
    obtain ⟨_, tree, found, adopted⟩ := parseExpression_adopted read
    have leaves : tree.Atomic tokens := Syntax.parseSnippet_atomic (learns.added adopted.longer.toExtends) found
    exact (atomic.withBuffer _).adopt (sound.withBuffer _) adopted leaves
  | copy present =>
    obtain ⟨_, twin, copied⟩ := duplicate_duplicated sound.forest present
    exact atomic.duplicate sound copied
  | join kind parts whole distinct free _ =>
    exact atomic.join sound (writeNode_joined doc kind parts distinct fun c member => (free c member).lt).2
      (not_token among whole)
  | replace parent free apart may run =>
    have replaced := Replaced.of_ok sound.forest parent free apart run
    obtain ⟨whole, outside⟩ := may.outside among atomic sound.forest parent
    exact atomic.edit sound replaced.edited whole outside
  | append object free apart run =>
    have appended := Appended.of_ok sound.forest object free apart run
    exact atomic.edit sound appended.edited (not_token among (by rw [object]; rfl)) (atomic.object_outside object)
  | remove parent object run =>
    have removed := Removed.of_ok sound.forest parent object run
    exact atomic.edit sound removed.edited (not_token among (by rw [object]; rfl)) (atomic.object_outside object)

end

/-- Moves keep tokens plain, as long as the texts that come in are read so. -/
theorem Moves.plain [Reader] (moves : doc.Moves doc') (sound : doc.Sound) (learns : doc.Learns doc' Reader.Plain)
    (plain : doc.Plain) : doc'.Plain :=
  moves.keep sound learns plain fun move soundly learns => move.atomic (fun _ token => token) soundly learns

end Document

end StoreModels
