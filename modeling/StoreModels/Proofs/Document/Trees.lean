import StoreModels.Proofs.Document.Render
import StoreModels.Proofs.Model.Reached

/-!
Whole trees in documents. Right after a text has been read, its tree stands in the table of the document node for node,
whatever stood there before: the kinds and names of the nodes, the fields of their children and their parts of the text
are those of the tree, and the text of every node is its part of the text that was read.
-/
namespace StoreModels
open Syntax (Span Tree Role)

namespace Document
variable {doc doc' : Document} {buffer : BufferId} {id c x y : NodeId} {low high : Nat} {ids : List NodeId}

/-! ## Nodes that bear trees -/

mutual

/-- A node and all below it stand for a tree of a text, as it was read. -/
def Bears (doc : Document) (buffer : BufferId) (id : NodeId) : Tree → Prop
  | .node kind named _ span children =>
    (doc.node id).kind = kind ∧ (doc.node id).named = named ∧ (doc.node id).origin = .parsed buffer span ∧
      (doc.node id).dirty = false ∧ doc.BearsAll buffer (doc.children id) children

/-- Some nodes stand for some trees one by one, and fill the same fields. -/
def BearsAll (doc : Document) (buffer : BufferId) : List NodeId → List Tree → Prop
  | [], [] => True
  | id :: ids, tree :: trees =>
    (doc.node id).field = tree.field ∧ doc.Bears buffer id tree ∧ doc.BearsAll buffer ids trees
  | _, _ => False

end

/-- A child stands for a tree and fills its field. -/
def BearsField (doc : Document) (buffer : BufferId) (id : NodeId) (tree : Tree) : Prop :=
  (doc.node id).field = tree.field ∧ doc.Bears buffer id tree

theorem bearsAll_iff {trees : List Tree} :
    doc.BearsAll buffer ids trees ↔ List.Forall₂ (doc.BearsField buffer) ids trees := by
  induction trees generalizing ids with
  | nil => cases ids <;> simp [BearsAll]
  | cons tree rest ih => cases ids <;> simp [BearsAll, BearsField, ih, and_assoc]

namespace Bears
variable {tree : Tree}

theorem kind (bears : doc.Bears buffer id tree) : (doc.node id).kind = tree.kind := by
  cases tree
  exact bears.1

theorem named (bears : doc.Bears buffer id tree) : (doc.node id).named = tree.named := by
  cases tree
  exact bears.2.1

theorem origin (bears : doc.Bears buffer id tree) : (doc.node id).origin = .parsed buffer tree.span := by
  cases tree
  exact bears.2.2.1

theorem clean (bears : doc.Bears buffer id tree) : (doc.node id).dirty = false := by
  cases tree
  exact bears.2.2.2.1

theorem children (bears : doc.Bears buffer id tree) :
    List.Forall₂ (doc.BearsField buffer) (doc.children id) tree.children := by
  cases tree
  exact bearsAll_iff.mp bears.2.2.2.2

theorem role (bears : doc.Bears buffer id tree) : doc.role id = Role.ofKind tree.kind := by
  rw [Document.role, Node.role, bears.kind]

theorem of_children (kind : (doc.node id).kind = tree.kind) (named : (doc.node id).named = tree.named)
    (origin : (doc.node id).origin = .parsed buffer tree.span) (clean : (doc.node id).dirty = false)
    (children : List.Forall₂ (doc.BearsField buffer) (doc.children id) tree.children) : doc.Bears buffer id tree := by
  cases tree
  exact ⟨kind, named, origin, clean, bearsAll_iff.mpr children⟩

/-- The text of a node that bears a tree is the tree's part of the text. -/
theorem text (bears : doc.Bears buffer id tree) (forest : doc.Forest) :
    doc.text id = Text.slice (doc.buffer buffer) tree.span.start tree.span.stop :=
  forest.render_clean bears.origin bears.clean _ _

end Bears

mutual

/-- What a tree says of a node depends on the nodes below it alone. -/
theorem Bears.congr {id : NodeId} {tree : Tree} (bears : doc.Bears buffer id tree)
    (same : ∀ x, doc.Below id x → doc'.node x = doc.node x) : doc'.Bears buffer id tree := by
  match tree with
  | .node kind named field span trees =>
    obtain ⟨isKind, isNamed, origin, clean, children⟩ := bears
    have here := same id (Below.refl doc id)
    refine ⟨?_, ?_, ?_, ?_, ?_⟩
    · rw [here, isKind]
    · rw [here, isNamed]
    · rw [here, origin]
    · rw [here, clean]
    · rw [Document.children, here]
      exact BearsAll.congr children fun c member x below => same x ((Below.child member).trans below)

theorem BearsAll.congr {ids : List NodeId} {trees : List Tree} (bears : doc.BearsAll buffer ids trees)
    (same : ∀ c ∈ ids, ∀ x, doc.Below c x → doc'.node x = doc.node x) : doc'.BearsAll buffer ids trees := by
  match ids, trees with
  | [], [] => trivial
  | [], _ :: _ => exact bears.elim
  | _ :: _, [] => exact bears.elim
  | id :: ids, tree :: trees =>
    obtain ⟨field, here, later⟩ := bears
    refine ⟨?_, ?_, ?_⟩
    · rw [same id (by simp) id (Below.refl doc id), field]
    · exact Bears.congr here (same id (by simp))
    · exact BearsAll.congr later fun c member => same c (by simp [member])

end

theorem lt_of_bears {tree : Tree} (bears : doc.Bears buffer id tree) : id < doc.nodes.size := by
  by_contra beyond
  have origin := bears.origin
  rw [node_beyond (Nat.le_of_not_lt beyond)] at origin
  cases origin

/-- The object literals in a node are itself, if it is one, and those in its children. -/
theorem literals_succ (n : Nat) (x : NodeId) :
    (doc.descend (n + 1) x).filter (fun z => doc.role z = .object) =
      (if doc.role x = .object then [x] else []) ++
        (doc.children x).flatMap fun c => (doc.descend n c).filter fun z => doc.role z = .object := by
  rw [descend, List.filter_cons, List.filter_flatMap]
  by_cases object : doc.role x = .object
  · rw [if_pos (decide_eq_true object), if_pos object, List.singleton_append]
  · rw [if_neg (by simpa using object), if_neg object, List.nil_append]

/-- Among leaves without a meaning there is no object literal. -/
theorem literals_leaves {n : Nat} (leaves : ∀ c ∈ ids, doc.children c = [] ∧ (doc.role c).isMute = true) :
    (ids.flatMap fun c => (doc.descend n c).filter fun z => doc.role z = .object) = [] := by
  rw [List.flatMap_eq_nil_iff]
  intro c child
  obtain ⟨bare, mute⟩ := leaves c child
  have other : doc.role c ≠ .object := fun object => by
    rw [object] at mute
    cases mute
  cases n with
  | zero => rfl
  | succ n => rw [literals_succ, bare, List.flatMap_nil, if_neg other, List.append_nil]

/-! ## Reading -/

/-- Below a node of a stretch of trees lie nodes of the stretch behind it. -/
theorem Sprouted.below {tops : List NodeId} (sprouted : Sprouted doc low high tops) (le : low ≤ x) (lt : x < high)
    (below : doc.Below x y) : x ≤ y ∧ y < high := by
  induction below with
  | refl => exact ⟨Nat.le_refl x, lt⟩
  | tail _ edge ih =>
    obtain ⟨behind, inside, _⟩ := sprouted.child _ (Nat.le_trans le ih.1) ih.2 _ edge
    exact ⟨Nat.le_trans ih.1 (Nat.le_of_lt behind), inside⟩

mutual

theorem adopt_bears (doc : Document) (buffer : BufferId) (parent : Option NodeId) (tree : Tree) :
    (doc.adopt buffer parent tree).1.Bears buffer doc.nodes.size tree := by
  match tree with
  | .node kind named field span trees =>
    obtain ⟨node, nodeIs⟩ : ∃ node, node = Node.parsed (.node kind named field span trees) buffer parent := ⟨_, rfl⟩
    have adoption := adoptAll_adoption (doc.insert node).1 buffer doc.nodes.size trees
    have bears := adoptAll_bears (doc.insert node).1 buffer doc.nodes.size trees
    simp only [adopt, insert_snd, ← nodeIs]
    generalize ((doc.insert node).1.adoptAll buffer doc.nodes.size trees).2 = ids at adoption bears ⊢
    generalize ((doc.insert node).1.adoptAll buffer doc.nodes.size trees).1 = grown at adoption bears ⊢
    have sprouted := adoption.sprouted
    have size := adoption.longer.size
    rw [size_insert] at sprouted size
    have top : (grown.update doc.nodes.size fun node => { node with children := ids, firstChildren := ids }).node
        doc.nodes.size = { node with children := ids, firstChildren := ids } := by
      rw [node_update_self _ size, adoption.longer.node _ (by simp), node_insert_self]
    refine ⟨?_, ?_, ?_, ?_, ?_⟩
    · rw [top, nodeIs]
      rfl
    · rw [top, nodeIs]
      rfl
    · rw [top, nodeIs]
      rfl
    · rw [top, nodeIs]
      rfl
    · rw [children, top]
      refine BearsAll.congr bears fun c member x below => node_update_of_ne _ ?_
      obtain ⟨from_low, inside⟩ := sprouted.topLt c member
      exact Nat.ne_of_gt (Nat.le_trans from_low (sprouted.below from_low inside below).1)

theorem adoptAll_bears (doc : Document) (buffer : BufferId) (parent : NodeId) (trees : List Tree) :
    (doc.adoptAll buffer parent trees).1.BearsAll buffer (doc.adoptAll buffer parent trees).2 trees := by
  match trees with
  | [] => trivial
  | tree :: rest =>
    obtain ⟨number, adoption⟩ := adopt_adoption doc buffer (some parent) tree
    have here := adopt_bears doc buffer (some parent) tree
    have later := adoptAll_bears (doc.adopt buffer (some parent) tree).1 buffer parent rest
    have longer := (adoptAll_adoption (doc.adopt buffer (some parent) tree).1 buffer parent rest).longer
    have sprouted := adoption.sprouted
    obtain ⟨from_low, inside⟩ := sprouted.topLt doc.nodes.size (by simp)
    have kept : ∀ x, (doc.adopt buffer (some parent) tree).1.Below doc.nodes.size x → _ := fun x below =>
      longer.node x (sprouted.below from_low inside below).2
    simp only [adoptAll]
    rw [number]
    refine ⟨?_, here.congr kept, later⟩
    rw [kept _ (Below.refl _ _)]
    have reads := adoption.reads
    simp only [List.forall₂_cons, List.Forall₂.nil, and_true] at reads
    exact reads.field

end

/-- The root of a file stands for the tree that the file was read as. -/
theorem ofTree_bears (dialect : Syntax.Dialect) (source : List Char) (tree : Tree) :
    (ofTree dialect source tree).Bears 0 (ofTree dialect source tree).root tree := by
  obtain ⟨start, startIs⟩ : ∃ start : Document, start =
      { dialect, buffers := [source], nodes := #[], root := 0, shownIndent := Text.indentUnit? source
        fallbackIndent := [' ', ' '], newline := Text.newlineOf source } := ⟨_, rfl⟩
  obtain ⟨number, _⟩ := adopt_adoption start 0 none tree
  have bears := adopt_bears start 0 none tree
  have root : (ofTree dialect source tree).root = start.nodes.size := by
    rw [← number, startIs]
    rfl
  rw [root]
  refine bears.congr fun x _ => ?_
  rw [startIs]
  rfl

/-- A file that is parsed stands for the tree that its text is read as. -/
theorem parse_bears [Syntax.Reader] {dialect : Syntax.Dialect} {source : List Char} {first : Document}
    (file : Document.parse dialect source = .ok first) (indent : List Char) :
    ∃ tree, Syntax.Reader.program? dialect source = some tree ∧
      (first.withFallbackIndent indent).Bears 0 (first.withFallbackIndent indent).root tree ∧
      (first.withFallbackIndent indent).source = source := by
  obtain ⟨tree, found, rfl⟩ := parse_ofTree file
  refine ⟨tree, found, (ofTree_bears dialect source tree).congr fun x _ => rfl, ?_⟩
  simp [Document.source, buffer, withFallbackIndent, parse_buffers file]

/-- A node stands for the same tree once it fills no field. -/
theorem Bears.without_field {buffer : BufferId} {tree : Tree} (bears : doc.Bears buffer x tree)
    (apart : ∀ c ∈ doc.children x, ∀ y, doc.Below c y → y ≠ x) :
    (doc.update x fun node => { node with field := none }).Bears buffer x tree := by
  refine Bears.of_children ?_ ?_ ?_ ?_ ?_
  · rw [← bears.kind]
    exact node_update_field Node.kind _ fun _ => rfl
  · rw [← bears.named]
    exact node_update_field Node.named _ fun _ => rfl
  · rw [← bears.origin]
    exact node_update_field Node.origin _ fun _ => rfl
  · rw [← bears.clean]
    exact node_update_field Node.dirty _ fun _ => rfl
  · have same : (doc.update x fun node => { node with field := none }).children x = doc.children x :=
      node_update_field Node.children _ fun _ => rfl
    rw [same]
    refine forall₂_imp_mem bears.children fun c member t _ both => ?_
    have kept : ∀ y, doc.Below c y → (doc.update x fun node => { node with field := none }).node y = doc.node y :=
      fun y below => node_update_of_ne _ (apart c member y below)
    refine ⟨?_, both.2.congr kept⟩
    rw [kept c (Below.refl doc c)]
    exact both.1

/-- The node of a snippet stands for the tree that the snippet was read as. -/
theorem parseExpression_bears [Syntax.Reader] {snippet : List Char} {tree : Tree}
    (read : Syntax.parseSnippet doc.dialect (Text.trim snippet) = .ok tree) :
    ∃ doc', doc.parseExpression snippet = .ok (doc', doc.nodes.size) ∧
      doc'.buffer doc.buffers.length = Syntax.snippetText (Text.trim snippet) ∧
      doc'.Bears doc.buffers.length doc.nodes.size tree := by
  obtain ⟨start, startIs⟩ : ∃ start : Document,
    start = { doc with buffers := doc.buffers ++ [Syntax.snippetText (Text.trim snippet)] } := ⟨_, rfl⟩
  obtain ⟨number, adoption⟩ := adopt_adoption start doc.buffers.length none tree
  have bears := adopt_bears start doc.buffers.length none tree
  have size : start.nodes.size = doc.nodes.size := by rw [startIs]
  rw [size] at number bears
  have run : doc.parseExpression snippet =
      .ok ((start.adopt doc.buffers.length none tree).1.update doc.nodes.size fun node => { node with field := none },
        doc.nodes.size) := by
    simp only [parseExpression, read, ← startIs, number]
  refine ⟨_, run, ?_, bears.without_field fun c member y below => ?_⟩
  · rw [← buffer_append doc (Syntax.snippetText (Text.trim snippet)), ← startIs]
    exact adoption.longer.toExtends.buffer (by simp [startIs])
  · have sprouted := adoption.sprouted
    rw [size] at sprouted
    obtain ⟨le, lt⟩ := sprouted.topLt doc.nodes.size (by simp)
    obtain ⟨behind, inside, _⟩ := sprouted.child _ le lt c member
    have later := (sprouted.below (Nat.le_of_lt behind) inside below).1
    exact Nat.ne_of_gt (Nat.lt_of_lt_of_le behind later)

end Document

end StoreModels
