import StoreModels.Document.Parse
import StoreModels.Proofs.Pairing
import StoreModels.Proofs.Document.Edits
import StoreModels.Proofs.Syntax.Shape

/-!
How documents grow. The tree of a text, a copy of a tree and a written node all go behind the nodes that are there, and
each new node stands before its children. A node of a text mirrors a part of the syntax tree; a node of a copy has a
twin that it agrees with in everything but its place.
-/
namespace StoreModels
open Syntax (Span Tree Role)

namespace Document
variable {doc doc' doc'' first : Document} {id x p c : NodeId} {low middle high : Nat}

/-! ## Nodes behind the others -/

/-- The second document has more nodes; those of the first are as they were. -/
structure Prolongs (doc doc' : Document) : Prop where
  rest : doc' = { doc with nodes := doc'.nodes }
  size : doc.nodes.size ≤ doc'.nodes.size
  node : ∀ x < doc.nodes.size, doc'.node x = doc.node x

namespace Prolongs

theorem refl (doc : Document) : Prolongs doc doc := ⟨rfl, Nat.le_refl _, fun _ _ => rfl⟩

theorem trans (left : Prolongs doc doc') (right : Prolongs doc' doc'') : Prolongs doc doc'' where
  rest := right.rest.trans (congrArg (fun d : Document => { d with nodes := doc''.nodes }) left.rest)
  size := Nat.le_trans left.size right.size
  node x lt := (right.node x (Nat.lt_of_lt_of_le lt left.size)).trans (left.node x lt)

theorem insert (doc : Document) (node : Node) : Prolongs doc (doc.insert node).1 where
  rest := rfl
  size := by simp
  node _ lt := node_insert_of_ne node (Nat.ne_of_lt lt)

/-- An update of a new node leaves the old ones alone. -/
theorem update (longer : Prolongs doc doc') (new : doc.nodes.size ≤ id) (change : Node → Node) :
    Prolongs doc (doc'.update id change) where
  rest := by
    rw [longer.rest]
    rfl
  size := by simpa using longer.size
  node x lt := by
    have other : x ≠ id := Nat.ne_of_lt (Nat.lt_of_lt_of_le lt new)
    rw [node_update_of_ne change other, longer.node x lt]

theorem toExtends (longer : Prolongs doc doc') : Extends doc doc' where
  size := longer.size
  buffers := ⟨[], by rw [List.append_nil, longer.rest]⟩
  dialect := by rw [longer.rest]
  root := by rw [longer.rest]
  shownIndent := by rw [longer.rest]
  fallbackIndent := by rw [longer.rest]
  newline := by rw [longer.rest]
  kind x lt := by rw [longer.node x lt]
  origin x lt := by rw [longer.node x lt]
  named x lt := by rw [longer.node x lt]
  firstChildren x lt := by rw [longer.node x lt]

end Prolongs

/-- The nodes from `low` up to `high` are whole trees with some tops; each stands before its children. -/
structure Sprouted (doc : Document) (low high : Nat) (tops : List NodeId) : Prop where
  topLt : ∀ t ∈ tops, low ≤ t ∧ t < high
  topsNodup : tops.Nodup
  child : ∀ x, low ≤ x → x < high → ∀ c ∈ doc.children x, x < c ∧ c < high ∧ c ∉ tops ∧ doc.parent? c = some x
  parent : ∀ x, low ≤ x → x < high → x ∈ tops ∨ ∃ p, doc.parent? x = some p ∧ low ≤ p ∧ p < high ∧ x ∈ doc.children p
  nodup : ∀ x, low ≤ x → x < high → (doc.children x).Nodup

namespace Sprouted
variable {tops more : List NodeId}

theorem nil (doc : Document) (low : Nat) : Sprouted doc low low [] where
  topLt := by simp
  topsNodup := List.nodup_nil
  child _ le lt := absurd le (Nat.not_le_of_gt lt)
  parent _ le lt := absurd le (Nat.not_le_of_gt lt)
  nodup _ le lt := absurd le (Nat.not_le_of_gt lt)

/-- What a stretch of trees is depends on its inner links alone. -/
theorem congr (sprouted : Sprouted doc low high tops)
    (children : ∀ x, low ≤ x → x < high → doc'.children x = doc.children x)
    (parent : ∀ x, low ≤ x → x < high → x ∉ tops → doc'.parent? x = doc.parent? x) :
    Sprouted doc' low high tops where
  topLt := sprouted.topLt
  topsNodup := sprouted.topsNodup
  child x le lt c member := by
    rw [children x le lt] at member
    obtain ⟨gt, inside, inner, link⟩ := sprouted.child x le lt c member
    refine ⟨gt, inside, inner, ?_⟩
    rw [parent c (Nat.le_trans le (Nat.le_of_lt gt)) inside inner, link]
  parent x le lt := by
    by_cases top : x ∈ tops
    · exact .inl top
    · rcases sprouted.parent x le lt with top' | ⟨p, link, le', lt', member⟩
      · exact absurd top' top
      · refine .inr ⟨p, ?_, le', lt', ?_⟩
        · rw [parent x le lt top, link]
        · rw [children p le' lt']
          exact member
  nodup x le lt := by
    rw [children x le lt]
    exact sprouted.nodup x le lt

/-- Two stretches of trees one behind the other. -/
theorem append (left : Sprouted doc low middle tops) (right : Sprouted doc middle high more) (le : low ≤ middle)
    (le' : middle ≤ high) : Sprouted doc low high (tops ++ more) where
  topLt t member := by
    rcases List.mem_append.mp member with early | late
    · obtain ⟨from_low, lt⟩ := left.topLt t early
      exact ⟨from_low, Nat.lt_of_lt_of_le lt le'⟩
    · obtain ⟨from_middle, lt⟩ := right.topLt t late
      exact ⟨Nat.le_trans le from_middle, lt⟩
  topsNodup := by
    refine List.nodup_append.mpr ⟨left.topsNodup, right.topsNodup, ?_⟩
    rintro a early b late rfl
    exact Nat.lt_irrefl _ (Nat.lt_of_lt_of_le (left.topLt a early).2 (right.topLt a late).1)
  child x from_low lt c member := by
    by_cases early : x < middle
    · obtain ⟨gt, inside, inner, link⟩ := left.child x from_low early c member
      refine ⟨gt, Nat.lt_of_lt_of_le inside le', ?_, link⟩
      rw [List.mem_append, not_or]
      exact ⟨inner, fun late => Nat.lt_irrefl _ (Nat.lt_of_lt_of_le inside (right.topLt c late).1)⟩
    · have late := Nat.le_of_not_lt early
      obtain ⟨gt, inside, inner, link⟩ := right.child x late lt c member
      refine ⟨gt, inside, ?_, link⟩
      rw [List.mem_append, not_or]
      refine ⟨fun top => ?_, inner⟩
      exact Nat.lt_irrefl _ (Nat.lt_of_lt_of_le (Nat.lt_trans gt (left.topLt c top).2) late)
  parent x from_low lt := by
    by_cases early : x < middle
    · rcases left.parent x from_low early with top | ⟨p, link, le'', lt', member⟩
      · exact .inl (List.mem_append_left _ top)
      · exact .inr ⟨p, link, le'', Nat.lt_of_lt_of_le lt' le', member⟩
    · rcases right.parent x (Nat.le_of_not_lt early) lt with top | ⟨p, link, le'', lt', member⟩
      · exact .inl (List.mem_append_right _ top)
      · exact .inr ⟨p, link, Nat.le_trans le le'', lt', member⟩
  nodup x from_low lt := by
    by_cases early : x < middle
    · exact left.nodup x from_low early
    · exact right.nodup x (Nat.le_of_not_lt early) lt

/-- A node before its children is one tree with them. -/
theorem node (below : Sprouted doc (low + 1) high tops) (lt : low < high) (children : doc.children low = tops)
    (parent : ∀ c ∈ tops, doc.parent? c = some low) : Sprouted doc low high [low] where
  topLt t member := by
    rw [List.mem_singleton.mp member]
    exact ⟨Nat.le_refl _, lt⟩
  topsNodup := List.nodup_singleton low
  child x from_low lt' c member := by
    rcases Nat.eq_or_lt_of_le from_low with rfl | later
    · rw [children] at member
      obtain ⟨gt, inside⟩ := below.topLt c member
      exact ⟨gt, inside, by simpa using Nat.ne_of_gt gt, parent c member⟩
    · obtain ⟨gt, inside, _, link⟩ := below.child x later lt' c member
      exact ⟨gt, inside, by simpa using Nat.ne_of_gt (Nat.lt_trans later gt), link⟩
  parent x from_low lt' := by
    rcases Nat.eq_or_lt_of_le from_low with rfl | later
    · exact .inl (List.mem_singleton.mpr rfl)
    · rcases below.parent x later lt' with top | ⟨p, link, le', lt'', member⟩
      · exact .inr ⟨low, parent x top, Nat.le_refl _, lt, children ▸ top⟩
      · exact .inr ⟨p, link, Nat.le_of_lt le', lt'', member⟩
  nodup x from_low lt' := by
    rcases Nat.eq_or_lt_of_le from_low with rfl | later
    · rw [children]
      exact below.topsNodup
    · exact below.nodup x later lt'

end Sprouted

/-- A document with a free tree behind its nodes is a growth of it. -/
theorem Sprouted.grown {tops : List NodeId} (sprouted : Sprouted doc' doc.nodes.size doc'.nodes.size tops)
    (longer : Prolongs doc doc') (roots : ∀ t ∈ tops, doc'.parent? t = none) : Grown doc doc' where
  size := longer.size
  parent x lt := by rw [parent?, longer.node x lt, parent?]
  children x lt := by rw [children, longer.node x lt, children]
  childGt x new c member := by
    obtain ⟨gt, lt, _, link⟩ := sprouted.child x new (lt_of_mem_children member) c member
    exact ⟨gt, lt, link⟩
  parentChild x new p link := by
    rcases sprouted.parent x new (lt_of_parent link) with top | ⟨p', link', le, _, member⟩
    · rw [roots x top] at link
      cases link
    · rw [link'] at link
      cases link
      exact ⟨le, member⟩
  nodup x new := by
    by_cases lt : x < doc'.nodes.size
    · exact sprouted.nodup x new lt
    · rw [children_beyond (Nat.le_of_not_lt lt)]
      exact List.nodup_nil

/-! ## Trees of texts -/

/-- A node was read as a tree, whatever lies below it. -/
structure Reads (doc : Document) (buffer : BufferId) (id : NodeId) (tree : Tree) : Prop where
  kind : (doc.node id).kind = tree.kind
  origin : (doc.node id).origin = .parsed buffer tree.span
  field : (doc.node id).field = tree.field
  count : (doc.children id).length = tree.children.length

/-- A node and its children were read as a tree and nothing has happened to them since. -/
structure Mirrors (doc : Document) (buffer : BufferId) (id : NodeId) (tree : Tree) : Prop where
  kind : (doc.node id).kind = tree.kind
  origin : (doc.node id).origin = .parsed buffer tree.span
  children : List.Forall₂ (doc.Reads buffer) (doc.children id) tree.children
  firstChildren : (doc.node id).firstChildren = doc.children id
  tookNone : (doc.node id).replaces = none
  clean : (doc.node id).dirty = false

theorem Reads.congr {buffer : BufferId} {tree : Tree} (reads : doc.Reads buffer id tree)
    (same : doc'.node id = doc.node id) : doc'.Reads buffer id tree := by
  refine ⟨?_, ?_, ?_, ?_⟩
  · rw [same, reads.kind]
  · rw [same, reads.origin]
  · rw [same, reads.field]
  · rw [children, same, ← reads.count, children]

theorem Mirrors.congr {buffer : BufferId} {tree : Tree} (mirrors : doc.Mirrors buffer id tree)
    (same : doc'.node id = doc.node id) (below : ∀ c ∈ doc.children id, doc'.node c = doc.node c) :
    doc'.Mirrors buffer id tree := by
  have children : doc'.children id = doc.children id := by rw [Document.children, same, Document.children]
  refine ⟨?_, ?_, ?_, ?_, ?_, ?_⟩
  · rw [same, mirrors.kind]
  · rw [same, mirrors.origin]
  · rw [children]
    exact forall₂_imp_mem mirrors.children fun c member _ _ reads => reads.congr (below c member)
  · rw [same, children, mirrors.firstChildren]
  · rw [same, mirrors.tookNone]
  · rw [same, mirrors.clean]

/-- Trees of a text have been added behind the nodes, as siblings. -/
structure Adoption (doc doc' : Document) (buffer : BufferId) (parent : Option NodeId) (ids : List NodeId)
    (trees : List Tree) : Prop where
  longer : Prolongs doc doc'
  sprouted : Sprouted doc' doc.nodes.size doc'.nodes.size ids
  parent : ∀ id ∈ ids, doc'.parent? id = parent
  reads : List.Forall₂ (doc'.Reads buffer) ids trees
  mirrors : ∀ x, doc.nodes.size ≤ x → x < doc'.nodes.size → ∃ t ∈ Tree.subtreesAll trees, doc'.Mirrors buffer x t

theorem Adoption.nil (doc : Document) (buffer : BufferId) (parent : Option NodeId) :
    Adoption doc doc buffer parent [] [] where
  longer := Prolongs.refl doc
  sprouted := Sprouted.nil doc _
  parent := by simp
  reads := .nil
  mirrors _ le lt := absurd le (Nat.not_le_of_gt lt)

/-- Siblings one after the other. -/
theorem Adoption.cons {buffer : BufferId} {parent : Option NodeId} {ids : List NodeId} {tree : Tree}
    {trees : List Tree} (left : Adoption doc doc' buffer parent [id] [tree])
    (right : Adoption doc' doc'' buffer parent ids trees) :
    Adoption doc doc'' buffer parent (id :: ids) (tree :: trees) := by
  have kept := right.longer.node
  have sprouted : Sprouted doc'' doc.nodes.size doc'.nodes.size [id] :=
    left.sprouted.congr (fun x _ lt => by rw [children, kept x lt, children])
      (fun x _ lt _ => by rw [parent?, kept x lt, parent?])
  have here : id < doc'.nodes.size := (left.sprouted.topLt id (by simp)).2
  refine ⟨left.longer.trans right.longer, sprouted.append right.sprouted left.longer.size right.longer.size, ?parent,
    ?reads, ?mirrors⟩
  case parent =>
    intro c member
    rcases List.mem_cons.mp member with rfl | later
    · rw [parent?, kept c here]
      exact left.parent c (by simp)
    · exact right.parent c later
  case reads =>
    cases left.reads with
    | cons reads _ => exact .cons (reads.congr (kept id here)) right.reads
  case mirrors =>
    intro x le lt
    by_cases early : x < doc'.nodes.size
    · obtain ⟨t, member, mirrors⟩ := left.mirrors x le early
      refine ⟨t, ?_, mirrors.congr (kept x early) fun c listed => kept c (left.sprouted.child x le early c listed).2.1⟩
      simp only [Tree.subtreesAll, List.append_nil] at member
      simp only [Tree.subtreesAll]
      exact List.mem_append_left _ member
    · obtain ⟨t, member, mirrors⟩ := right.mirrors x (Nat.le_of_not_lt early) lt
      refine ⟨t, ?_, mirrors⟩
      simp only [Tree.subtreesAll]
      exact List.mem_append_right _ member

/-- A tree of which first the root and then what is below it has been added. -/
theorem Adoption.node {buffer : BufferId} {parent : Option NodeId} {ids : List NodeId} {tree : Tree} {grown : Document}
    (below : Adoption (doc.insert (.parsed tree buffer parent)).1 grown buffer (some doc.nodes.size) ids tree.children) :
    Adoption doc (grown.update doc.nodes.size fun node => { node with children := ids, firstChildren := ids }) buffer
      parent [doc.nodes.size] [tree] := by
  have longer := Prolongs.insert doc (.parsed tree buffer parent)
  have bound := below.longer.size
  have inner := below.sprouted
  have mirrored := below.mirrors
  simp only [size_insert] at bound inner mirrored
  have present : doc.nodes.size < grown.nodes.size := bound
  obtain ⟨final, finalIs⟩ : ∃ final : Document, final = grown.update doc.nodes.size fun node =>
      { node with children := ids, firstChildren := ids } := ⟨_, rfl⟩
  rw [← finalIs]
  have top : final.node doc.nodes.size =
      { Node.parsed tree buffer parent with children := ids, firstChildren := ids } := by
    rw [finalIs, node_update_self _ present, below.longer.node _ (by simp), node_insert_self]
  have kept : ∀ x, x ≠ doc.nodes.size → final.node x = grown.node x := fun x other => by
    rw [finalIs, node_update_of_ne _ other]
  have sizes : final.nodes.size = grown.nodes.size := by rw [finalIs, size_update]
  have later : ∀ x, doc.nodes.size + 1 ≤ x → final.node x = grown.node x := fun x le => kept x (Nat.ne_of_gt le)
  have listed : ∀ c ∈ ids, doc.nodes.size + 1 ≤ c := fun c member => (inner.topLt c member).1
  have reads : List.Forall₂ (final.Reads buffer) ids tree.children :=
    forall₂_imp_mem below.reads fun c member _ _ reads => reads.congr (later c (listed c member))
  refine ⟨?longer, ?sprouted, ?parent, ?reads, ?mirrors⟩
  case longer =>
    rw [finalIs]
    exact (longer.trans below.longer).update (Nat.le_refl _) _
  case sprouted =>
    have sprouted : Sprouted final (doc.nodes.size + 1) grown.nodes.size ids :=
      inner.congr (fun x le _ => by rw [children, later x le, children])
        (fun x le _ _ => by rw [parent?, later x le, parent?])
    rw [sizes]
    refine sprouted.node present ?_ fun c member => ?_
    · rw [children, top]
    · rw [parent?, later c (listed c member)]
      exact below.parent c member
  case parent =>
    intro c member
    rw [List.mem_singleton.mp member, parent?, top]
    rfl
  case reads =>
    refine .cons ⟨?_, ?_, ?_, ?_⟩ .nil
    · rw [top]; rfl
    · rw [top]; rfl
    · rw [top]; rfl
    · rw [children, top]
      exact reads.length_eq
  case mirrors =>
    intro x le lt
    simp only [Tree.subtreesAll, List.append_nil, Tree.subtrees_eq]
    rcases Nat.eq_or_lt_of_le le with rfl | behind
    · refine ⟨tree, List.mem_cons_self, ?_, ?_, ?_, ?_, ?_, ?_⟩
      · rw [top]; rfl
      · rw [top]; rfl
      · rw [children, top]
        exact reads
      · rw [children, top]
      · rw [top]; rfl
      · rw [top]; rfl
    · rw [sizes] at lt
      obtain ⟨t, member, mirrors⟩ := mirrored x behind lt
      refine ⟨t, List.mem_cons_of_mem _ member, mirrors.congr (later x behind) fun c inside => later c ?_⟩
      exact Nat.le_trans behind (Nat.le_of_lt (inner.child x behind lt c inside).1)

mutual

theorem adopt_adoption (doc : Document) (buffer : BufferId) (parent : Option NodeId) (tree : Tree) :
    (doc.adopt buffer parent tree).2 = doc.nodes.size ∧
      Adoption doc (doc.adopt buffer parent tree).1 buffer parent [doc.nodes.size] [tree] := by
  match tree with
  | .node kind named field span children =>
    simp only [adopt, insert_snd]
    exact ⟨trivial, (adoptAll_adoption _ buffer doc.nodes.size children).node⟩

theorem adoptAll_adoption (doc : Document) (buffer : BufferId) (parent : NodeId) (trees : List Tree) :
    Adoption doc (doc.adoptAll buffer parent trees).1 buffer (some parent) (doc.adoptAll buffer parent trees).2 trees := by
  match trees with
  | [] =>
    simp only [adoptAll]
    exact Adoption.nil doc buffer (some parent)
  | tree :: rest =>
    obtain ⟨number, left⟩ := adopt_adoption doc buffer (some parent) tree
    simp only [adoptAll]
    rw [number]
    exact left.cons (adoptAll_adoption _ buffer parent rest)

end

/-! ## Copies -/

/-- The children a copy counts as its first ones: copies where there are any. -/
def renamedFirst (originals copies firsts : List NodeId) : List NodeId :=
  firsts.map fun o => ((originals.zip copies).lookup o).getD o

/-- A node of the second document agrees with its twin in the first one in everything but its place; what it was parsed
    with are the copies of what its twin was parsed with, as far as there are any. -/
structure Twin (doc doc' : Document) (twin : NodeId → NodeId) (x : NodeId) : Prop where
  lt : twin x < doc.nodes.size
  kind : (doc'.node x).kind = (doc.node (twin x)).kind
  origin : (doc'.node x).origin = (doc.node (twin x)).origin
  field : (doc'.node x).field = (doc.node (twin x)).field
  named : (doc'.node x).named = (doc.node (twin x)).named
  dirty : (doc'.node x).dirty = (doc.node (twin x)).dirty
  children : (doc'.children x).map twin = doc.children (twin x)
  firstChildren : (doc'.node x).firstChildren =
    renamedFirst (doc.children (twin x)) (doc'.children x) (doc.node (twin x)).firstChildren
  replaces : ∀ c ∈ doc'.children x, (doc'.node c).replaces = (doc.node (twin c)).replaces

/-- Being a twin is a matter of the node and its children. -/
theorem Twin.congr {twin other : NodeId → NodeId} (alike : Twin first doc twin x) (here : other x = twin x)
    (kind : (doc'.node x).kind = (doc.node x).kind) (origin : (doc'.node x).origin = (doc.node x).origin)
    (field : (doc'.node x).field = (doc.node x).field) (named : (doc'.node x).named = (doc.node x).named)
    (dirty : (doc'.node x).dirty = (doc.node x).dirty) (children : doc'.children x = doc.children x)
    (firstChildren : (doc'.node x).firstChildren = (doc.node x).firstChildren)
    (below : ∀ c ∈ doc.children x, other c = twin c ∧ (doc'.node c).replaces = (doc.node c).replaces) :
    Twin first doc' other x where
  lt := here ▸ alike.lt
  kind := by rw [kind, here, alike.kind]
  origin := by rw [origin, here, alike.origin]
  field := by rw [field, here, alike.field]
  named := by rw [named, here, alike.named]
  dirty := by rw [dirty, here, alike.dirty]
  children := by
    rw [children, here, ← alike.children]
    exact List.map_congr_left fun c member => (below c member).1
  firstChildren := by rw [firstChildren, children, here, alike.firstChildren]
  replaces c member := by
    rw [children] at member
    rw [(below c member).2, (below c member).1, alike.replaces c member]

/-- Copies of nodes of the document `first` have been added behind the nodes, as siblings. -/
structure Copying (first doc doc' : Document) (parent : Option NodeId) (twin : NodeId → NodeId)
    (copies originals : List NodeId) : Prop where
  longer : Prolongs doc doc'
  sprouted : Sprouted doc' doc.nodes.size doc'.nodes.size copies
  parent : ∀ c ∈ copies, doc'.parent? c = parent
  originals : copies.map twin = originals
  replaces : ∀ c ∈ copies, (doc'.node c).replaces = (first.node (twin c)).replaces
  twins : ∀ x, doc.nodes.size ≤ x → x < doc'.nodes.size → Twin first doc' twin x

namespace Copying
variable {parent : Option NodeId} {twin other : NodeId → NodeId} {copies originals : List NodeId} {original copy : NodeId}

theorem nil (first doc : Document) (parent : Option NodeId) : Copying first doc doc parent (fun x => x) [] [] where
  longer := Prolongs.refl doc
  sprouted := Sprouted.nil doc _
  parent := by simp
  originals := rfl
  replaces := by simp
  twins _ le lt := absurd le (Nat.not_le_of_gt lt)

/-- The copy gets a parent. -/
theorem hang (copying : Copying first doc doc' parent twin [copy] originals) (p : NodeId) :
    Copying first doc (doc'.update copy fun node => { node with parent := some p }) (some p) twin [copy] originals := by
  obtain ⟨from_size, present⟩ := copying.sprouted.topLt copy (by simp)
  have children : ∀ x, (doc'.update copy fun node => { node with parent := some p }).children x = doc'.children x :=
    fun x => node_update_field Node.children _ fun _ => rfl
  refine ⟨copying.longer.update from_size _, ?_, ?_, copying.originals, ?_, ?_⟩
  · rw [size_update]
    refine copying.sprouted.congr (fun x _ _ => children x) (fun x _ _ inner => ?_)
    have other : x ≠ copy := by simpa using inner
    rw [parent?, node_update_of_ne _ other, parent?]
  · intro c member
    rw [List.mem_singleton.mp member, parent?, node_update_self _ present]
  · intro c member
    rw [← copying.replaces c member]
    exact node_update_field Node.replaces _ fun _ => rfl
  · intro x le lt
    rw [size_update] at lt
    exact (copying.twins x le lt).congr rfl (node_update_field Node.kind _ fun _ => rfl)
      (node_update_field Node.origin _ fun _ => rfl) (node_update_field Node.field _ fun _ => rfl)
      (node_update_field Node.named _ fun _ => rfl) (node_update_field Node.dirty _ fun _ => rfl) (children x)
      (node_update_field Node.firstChildren _ fun _ => rfl)
      fun c _ => ⟨rfl, node_update_field Node.replaces _ fun _ => rfl⟩

/-- Siblings one after the other. -/
theorem cons (left : Copying first doc doc' parent twin [copy] [original])
    (right : Copying first doc' doc'' parent other copies originals) :
    Copying first doc doc'' parent (fun x => if x < doc'.nodes.size then twin x else other x) (copy :: copies)
      (original :: originals) := by
  have kept := right.longer.node
  have here : copy < doc'.nodes.size := (left.sprouted.topLt copy (by simp)).2
  have there : ∀ c ∈ copies, ¬ c < doc'.nodes.size := fun c member => Nat.not_lt_of_ge (right.sprouted.topLt c member).1
  have sprouted : Sprouted doc'' doc.nodes.size doc'.nodes.size [copy] :=
    left.sprouted.congr (fun x _ lt => by rw [children, kept x lt, children])
      (fun x _ lt _ => by rw [parent?, kept x lt, parent?])
  refine ⟨left.longer.trans right.longer, sprouted.append right.sprouted left.longer.size right.longer.size, ?_, ?_, ?_, ?_⟩
  · intro c member
    rcases List.mem_cons.mp member with rfl | later
    · rw [parent?, kept c here]
      exact left.parent c (by simp)
    · exact right.parent c later
  · have one := left.originals
    simp only [List.map_cons, List.map_nil, List.cons.injEq, and_true] at one
    rw [List.map_cons, if_pos here, one, ← right.originals]
    exact congrArg _ (List.map_congr_left fun c member => if_neg (there c member))
  · intro c member
    rcases List.mem_cons.mp member with rfl | later
    · rw [if_pos here, kept c here]
      exact left.replaces c (by simp)
    · rw [if_neg (there c later)]
      exact right.replaces c later
  · intro x le lt
    by_cases early : x < doc'.nodes.size
    · have same := kept x early
      refine (left.twins x le early).congr (if_pos early) ?_ ?_ ?_ ?_ ?_ ?_ ?_ fun c member => ?_
      · rw [same]
      · rw [same]
      · rw [same]
      · rw [same]
      · rw [same]
      · rw [children, same, children]
      · rw [same]
      · have inside := (left.sprouted.child x le early c member).2.1
        exact ⟨if_pos inside, by rw [kept c inside]⟩
    · have late := Nat.le_of_not_lt early
      refine (right.twins x late lt).congr (if_neg early) rfl rfl rfl rfl rfl rfl rfl fun c member => ⟨if_neg ?_, rfl⟩
      have := (right.sprouted.child x late lt c member).1
      exact Nat.not_lt_of_ge (Nat.le_trans late (Nat.le_of_lt this))

/-- A node of which first the node itself and then its children have been copied. -/
theorem node {grown : Document} (present : original < first.nodes.size)
    (below : Copying first
      (doc.insert { first.node original with parent := none, children := [], firstChildren := [] }).1 grown
      (some doc.nodes.size) twin copies (first.children original)) :
    Copying first doc
      (grown.update doc.nodes.size fun node =>
        { node with
          children := copies
          firstChildren := renamedFirst (first.children original) copies (first.node original).firstChildren })
      none (fun x => if x = doc.nodes.size then original else twin x) [doc.nodes.size] [original] := by
  have longer := Prolongs.insert doc { first.node original with parent := none, children := [], firstChildren := [] }
  have bound := below.longer.size
  have inner := below.sprouted
  have twins := below.twins
  simp only [size_insert] at bound inner twins
  obtain ⟨final, finalIs⟩ : ∃ final : Document, final = grown.update doc.nodes.size fun node =>
      { node with
        children := copies
        firstChildren := renamedFirst (first.children original) copies (first.node original).firstChildren } := ⟨_, rfl⟩
  rw [← finalIs]
  have top : final.node doc.nodes.size =
      { first.node original with
        parent := none
        children := copies
        firstChildren := renamedFirst (first.children original) copies (first.node original).firstChildren } := by
    rw [finalIs, node_update_self _ bound, below.longer.node _ (by simp), node_insert_self]
  have later : ∀ x, doc.nodes.size + 1 ≤ x → final.node x = grown.node x := fun x le => by
    rw [finalIs, node_update_of_ne _ (Nat.ne_of_gt le)]
  have sizes : final.nodes.size = grown.nodes.size := by rw [finalIs, size_update]
  have listed : ∀ c ∈ copies, doc.nodes.size + 1 ≤ c := fun c member => (inner.topLt c member).1
  have other : ∀ x, doc.nodes.size + 1 ≤ x → (if x = doc.nodes.size then original else twin x) = twin x :=
    fun x le => if_neg (Nat.ne_of_gt le)
  refine ⟨?longer, ?sprouted, ?parent, ?originals, ?replaces, ?twins⟩
  case longer =>
    rw [finalIs]
    exact (longer.trans below.longer).update (Nat.le_refl _) _
  case sprouted =>
    have sprouted : Sprouted final (doc.nodes.size + 1) grown.nodes.size copies :=
      inner.congr (fun x le _ => by rw [children, later x le, children])
        (fun x le _ _ => by rw [parent?, later x le, parent?])
    rw [sizes]
    refine sprouted.node bound ?_ fun c member => ?_
    · rw [children, top]
    · rw [parent?, later c (listed c member)]
      exact below.parent c member
  case parent =>
    intro c member
    rw [List.mem_singleton.mp member, parent?, top]
  case originals =>
    simp
  case replaces =>
    intro c member
    rw [List.mem_singleton.mp member, if_pos rfl, top]
  case twins =>
    intro x le lt
    rcases Nat.eq_or_lt_of_le le with rfl | behind
    · have own : final.children doc.nodes.size = copies := by rw [children, top]
      refine ⟨?_, ?_, ?_, ?_, ?_, ?_, ?_, ?_, ?_⟩
      · simpa using present
      · simp only [if_pos, top]
      · simp only [if_pos, top]
      · simp only [if_pos, top]
      · simp only [if_pos, top]
      · simp only [if_pos, top]
      · rw [own, if_pos rfl, ← below.originals]
        exact List.map_congr_left fun c member => other c (listed c member)
      · rw [own, if_pos rfl, top]
      · intro c member
        rw [own] at member
        rw [other c (listed c member), later c (listed c member)]
        exact below.replaces c member
    · rw [sizes] at lt
      have same := later x behind
      refine (twins x behind lt).congr (other x behind) ?_ ?_ ?_ ?_ ?_ ?_ ?_ fun c member => ?_
      · rw [same]
      · rw [same]
      · rw [same]
      · rw [same]
      · rw [same]
      · rw [children, same, children]
      · rw [same]
      · have inside : doc.nodes.size + 1 ≤ c :=
          Nat.le_trans behind (Nat.le_of_lt (inner.child x behind lt c member).1)
        exact ⟨other c inside, by rw [later c inside]⟩

end Copying

theorem copyAll_copying {copy : NodeId → Document → Document × NodeId} {ids : List NodeId}
    (each : ∀ id ∈ ids, ∀ doc, Prolongs first doc →
      ∃ twin, Copying first doc (copy id doc).1 none twin [(copy id doc).2] [id])
    (longer : Prolongs first doc) (p : NodeId) :
    ∃ twin, Copying first doc (copyAll copy p ids doc).1 (some p) twin (copyAll copy p ids doc).2 ids := by
  induction ids generalizing doc with
  | nil => exact ⟨_, Copying.nil first doc (some p)⟩
  | cons id rest ih =>
    obtain ⟨twin, left⟩ := each id (by simp) doc longer
    have hung := left.hang p
    obtain ⟨twin', right⟩ := ih (fun x member => each x (by simp [member])) (longer.trans hung.longer)
    exact ⟨_, hung.cons right⟩

/-- A copy down to a depth that all walks below the node stay within is a whole copy. -/
theorem copyDown_copying (forest : first.Forest) {depth : Nat} (present : id < first.nodes.size)
    (fits : first.Fits depth id) (longer : Prolongs first doc) :
    ∃ twin, Copying first doc (copyDown depth id doc).1 none twin [(copyDown depth id doc).2] [id] := by
  induction depth generalizing id doc with
  | zero => exact fits.elim
  | succ depth ih =>
    have inserted := Prolongs.insert doc { first.node id with parent := none, children := [], firstChildren := [] }
    obtain ⟨twin, below⟩ := copyAll_copying
      (fun c member doc longer => ih (forest.childLt member) (fits c member) longer) (longer.trans inserted)
      doc.nodes.size
    simp only [copyDown, longer.node id present, insert_snd]
    exact ⟨_, below.node present⟩

/-- What a duplicate is: a whole copy that takes no place. -/
structure Duplicated (doc doc' : Document) (twin : NodeId → NodeId) (original : NodeId) : Prop where
  longer : Prolongs doc doc'
  sprouted : Sprouted doc' doc.nodes.size doc'.nodes.size [doc.nodes.size]
  root : doc'.parent? doc.nodes.size = none
  original : twin doc.nodes.size = original
  tookNone : (doc'.node doc.nodes.size).replaces = none
  twins : ∀ x, doc.nodes.size ≤ x → x < doc'.nodes.size → Twin doc doc' twin x

theorem Duplicated.grown {twin : NodeId → NodeId} {original : NodeId} (copied : Duplicated doc doc' twin original) :
    Grown doc doc' :=
  copied.sprouted.grown copied.longer fun t member => by
    rw [List.mem_singleton.mp member]
    exact copied.root

theorem copyDown_snd (depth : Nat) (id : NodeId) (doc : Document) :
    (copyDown (depth + 1) id doc).2 = doc.nodes.size := rfl

theorem duplicate_duplicated (forest : doc.Forest) (present : id < doc.nodes.size) :
    (doc.duplicate id).2 = doc.nodes.size ∧ ∃ twin, Duplicated doc (doc.duplicate id).1 twin id := by
  have fits : doc.Fits (doc.nodes.size + 1) id := (forest.fits present).mono (Nat.le_succ _)
  obtain ⟨twin, copying⟩ := copyDown_copying forest present fits (Prolongs.refl doc)
  simp only [duplicate, copyDown_snd] at copying ⊢
  refine ⟨trivial, twin, ?_⟩
  generalize (copyDown (doc.nodes.size + 1) id doc).1 = grown at copying ⊢
  have here : doc.nodes.size < grown.nodes.size := (copying.sprouted.topLt _ (by simp)).2
  have children : ∀ x, (grown.update doc.nodes.size fun node => { node with replaces := none }).children x =
      grown.children x := fun x => node_update_field Node.children _ fun _ => rfl
  have parent : ∀ x, (grown.update doc.nodes.size fun node => { node with replaces := none }).parent? x =
      grown.parent? x := fun x => node_update_field Node.parent _ fun _ => rfl
  refine ⟨copying.longer.update (Nat.le_refl _) _, ?_, ?_, ?_, ?_, ?_⟩
  · rw [size_update]
    exact copying.sprouted.congr (fun x _ _ => children x) (fun x _ _ _ => parent x)
  · rw [parent]
    exact copying.parent _ (by simp)
  · simpa using copying.originals
  · rw [node_update_self _ here]
  · intro x le lt
    rw [size_update] at lt
    refine (copying.twins x le lt).congr rfl (node_update_field Node.kind _ fun _ => rfl)
      (node_update_field Node.origin _ fun _ => rfl) (node_update_field Node.field _ fun _ => rfl)
      (node_update_field Node.named _ fun _ => rfl) (node_update_field Node.dirty _ fun _ => rfl) (children x)
      (node_update_field Node.firstChildren _ fun _ => rfl) fun c member => ⟨rfl, ?_⟩
    have later := (copying.sprouted.child x le lt c member).1
    rw [node_update_of_ne _ (Nat.ne_of_gt (Nat.lt_of_le_of_lt le later))]

/-! ## Written nodes -/

/-- A written node has been added above some nodes that had no parent, each with a field. -/
structure Joined (doc doc' : Document) (kind : String) (parts : List (Option String × NodeId)) : Prop where
  rest : doc' = { doc with nodes := doc'.nodes }
  size : doc'.nodes.size = doc.nodes.size + 1
  top : doc'.node doc.nodes.size = { Node.written kind none with children := parts.map Prod.snd }
  part : ∀ field c, (field, c) ∈ parts → doc'.node c = { doc.node c with parent := some doc.nodes.size, field }
  node : ∀ x < doc.nodes.size, x ∉ parts.map Prod.snd → doc'.node x = doc.node x

theorem writeLeaf_prolongs (doc : Document) (kind : String) (text : List Char) :
    Prolongs doc (doc.writeLeaf kind text).1 :=
  Prolongs.insert doc _

theorem writeLeaf_node (doc : Document) (kind : String) (text : List Char) (x : NodeId) :
    (doc.writeLeaf kind text).1.node x = if x = doc.nodes.size then .written kind (some text) else doc.node x := by
  by_cases top : x = doc.nodes.size
  · rw [if_pos top, top]
    exact node_insert_self doc _
  · rw [if_neg top]
    exact node_insert_of_ne _ top

/-- What hanging parts below a node does to each of them. -/
theorem foldl_parts (top : NodeId) (parts : List (Option String × NodeId)) (distinct : (parts.map Prod.snd).Nodup)
    (present : ∀ c ∈ parts.map Prod.snd, c < doc.nodes.size) :
    let hang := fun (doc : Document) (part : Option String × NodeId) =>
      doc.update part.2 fun node => { node with parent := some top, field := part.1 }
    (parts.foldl hang doc = { doc with nodes := (parts.foldl hang doc).nodes }) ∧
      (parts.foldl hang doc).nodes.size = doc.nodes.size ∧
      (∀ field c, (field, c) ∈ parts →
        (parts.foldl hang doc).node c = { doc.node c with parent := some top, field }) ∧
      ∀ x, x ∉ parts.map Prod.snd → (parts.foldl hang doc).node x = doc.node x := by
  intro hang
  induction parts generalizing doc with
  | nil => exact ⟨rfl, rfl, by simp, fun _ _ => rfl⟩
  | cons part others ih =>
    obtain ⟨field, c⟩ := part
    simp only [List.map_cons, List.nodup_cons] at distinct
    have later : ∀ x ∈ others.map Prod.snd, x < (hang doc (field, c)).nodes.size := fun x member => by
      simpa [hang] using present x (by simp only [List.map_cons]; exact List.mem_cons_of_mem _ member)
    obtain ⟨rest, size, parts, node⟩ := ih distinct.2 later
    simp only [List.foldl_cons]
    refine ⟨?_, ?_, ?_, ?_⟩
    · rw [rest]
      rfl
    · rw [size]
      simp [hang]
    · intro field' x member
      rcases List.mem_cons.mp member with same | behind
      · cases same
        rw [node c distinct.1]
        exact node_update_self _ (present c (by simp))
      · have other : x ≠ c := by
          rintro rfl
          exact distinct.1 (List.mem_map.mpr ⟨(field', x), behind, rfl⟩)
        rw [parts field' x behind]
        simp only [hang, node_update_of_ne _ other]
    · intro x outside
      simp only [List.map_cons, List.mem_cons, not_or] at outside
      rw [node x outside.2]
      simp only [hang, node_update_of_ne _ outside.1]

theorem writeNode_joined (doc : Document) (kind : String) (parts : List (Option String × NodeId))
    (distinct : (parts.map Prod.snd).Nodup) (present : ∀ c ∈ parts.map Prod.snd, c < doc.nodes.size) :
    (doc.writeNode kind parts).2 = doc.nodes.size ∧ Joined doc (doc.writeNode kind parts).1 kind parts := by
  have longer := Prolongs.insert doc (.written kind none)
  have later : ∀ c ∈ parts.map Prod.snd, c < (doc.insert (.written kind none)).1.nodes.size := fun c member =>
    Nat.lt_of_lt_of_le (present c member) longer.size
  obtain ⟨rest, size, hung, node⟩ := foldl_parts doc.nodes.size parts distinct later
  have fresh : doc.nodes.size ∉ parts.map Prod.snd := fun member => Nat.lt_irrefl _ (present _ member)
  refine ⟨rfl, ?_⟩
  simp only [writeNode, insert_snd]
  rw [size_insert] at size
  refine ⟨?_, ?_, ?_, ?_, ?_⟩
  · rw [rest]
    rfl
  · rw [size_update, size]
  · rw [node_update_self _ (by rw [size]; exact Nat.lt_succ_self _), node _ fresh, node_insert_self]
    simp [Node.written]
  · intro field c member
    have listed : c ∈ parts.map Prod.snd := List.mem_map.mpr ⟨(field, c), member, rfl⟩
    have lt := present c listed
    rw [node_update_of_ne _ (Nat.ne_of_lt lt), hung field c member, longer.node c lt]
  · intro x lt outside
    rw [node_update_of_ne _ (Nat.ne_of_lt lt), node x outside, longer.node x lt]

end Document

end StoreModels
