import StoreModels.Proofs.Literal.Quoting
import StoreModels.Proofs.Record.Found

/-!
What snippets bring into a document: a tree with a text of its own that holds no model. Copies of such a tree bring the
same, and a pair that is written above one is recorded under its name with this text.
-/
namespace StoreModels
open Syntax (Role Reader)

/-- The record of an entry with a text and actions. -/
def Model.entryRecord (c : Container) (name source : List Char) (actions : List (List Char)) : EntryRecord :=
  ⟨name, source, if c.tracksDispatches then actions else []⟩

namespace Document
open Model (entryRecord)

variable {doc doc' : Document} {zone : NodeId → Prop} {loose held : List NodeId} {t x value : NodeId}
  {callees : List (List Char)} {source name : List Char} {actions : List (List Char)} {quote : Char} {c : Container}

/-- A node offers a text and actions: everything in it is as it was parsed, and no object literal in it is a model. -/
structure Offers (doc : Document) (callees : List (List Char)) (t : NodeId) (source : List Char)
    (actions : List (List Char)) : Prop where
  lt : t < doc.nodes.size
  text : doc.printNode t = source
  dispatches : doc.dispatches callees t = actions
  barren : doc.Barren t
  pristine : ∀ y, doc.Below t y → (doc.node y).isWritten = false ∧ (doc.node y).dirty = false

theorem Forest.printNode_clean (forest : doc.Forest) {buffer : BufferId} {span : Syntax.Span}
    (parsed : (doc.node x).origin = .parsed buffer span) (clean : (doc.node x).dirty = false) :
    doc.printNode x = Text.slice (doc.buffer buffer) span.start span.stop :=
  forest.render_clean parsed clean [] _

/-- A node outside of the zone of some edits goes on to offer the same. -/
theorem Offers.calm (offers : doc.Offers callees t source actions) (calm : Calm doc doc' zone loose) (sound : doc.Sound)
    (forest : doc'.Forest) (apart : doc.Apart zone t) : doc'.Offers callees t source actions where
  lt := Nat.lt_of_lt_of_le offers.lt calm.ext.size
  text := (calm.printNode sound forest offers.lt apart).trans offers.text
  dispatches := ((calm.likeness sound forest).dispatches sound.forest callees ⟨rfl, offers.lt, apart⟩).trans
    offers.dispatches
  barren := calm.barren sound forest offers.lt apart offers.barren
  pristine y below := by
    have below := (calm.below sound.forest offers.lt apart).mp below
    have present := sound.forest.below_lt offers.lt below
    obtain ⟨parsed, clean⟩ := offers.pristine y below
    rw [Node.isWritten, calm.ext.buffer? present, calm.dirty y present (apart.below below)]
    exact ⟨parsed, clean⟩

/-- Copies tell what their twins do where they print the same. -/
theorem Duplicated.likeness_of {twin : NodeId → NodeId} {P : NodeId → Prop} (copied : Duplicated doc doc' twin t)
    (closed : ∀ {a c}, P a → c ∈ doc.children a → P c)
    (text : ∀ b, doc.nodes.size ≤ b → b < doc'.nodes.size → P (twin b) → doc'.printNode b = doc.printNode (twin b)) :
    Likeness doc doc' fun a b => twin b = a ∧ doc.nodes.size ≤ b ∧ b < doc'.nodes.size ∧ P a where
  size := copied.longer.toExtends.size
  present := by
    rintro _ b ⟨rfl, le, lt, _⟩
    exact (copied.twins b le lt).lt
  kind := by
    rintro _ b ⟨rfl, le, lt, _⟩
    exact (copied.twins b le lt).kind
  named := by
    rintro _ b ⟨rfl, le, lt, _⟩
    exact (copied.twins b le lt).named
  text := by
    rintro _ b ⟨rfl, le, lt, holds⟩
    exact text b le lt holds
  children := by
    rintro _ b ⟨rfl, le, lt, holds⟩
    have alike := copied.twins b le lt
    rw [← alike.children, List.forall₂_map_left_iff, List.forall₂_same]
    intro x member
    obtain ⟨gt, lt', _⟩ := copied.sprouted.child b le lt x member
    have le' := Nat.le_trans le (Nat.le_of_lt gt)
    have child : twin x ∈ doc.children (twin b) := alike.children ▸ List.mem_map_of_mem member
    exact ⟨(copied.twins x le' lt').field, rfl, le', lt', closed holds child⟩

/-- A copy of a tree that is as it was parsed tells the same as the tree. -/
theorem Duplicated.likeness {twin : NodeId → NodeId} (copied : Duplicated doc doc' twin t) (sound : doc.Sound)
    (forest : doc'.Forest)
    (pristine : ∀ y, doc.Below t y → (doc.node y).isWritten = false ∧ (doc.node y).dirty = false) :
    Likeness doc doc' fun a b => twin b = a ∧ doc.nodes.size ≤ b ∧ b < doc'.nodes.size ∧ doc.Below t a := by
  refine copied.likeness_of (fun below child => below.tail child) fun b le lt below => ?_
  have alike := copied.twins b le lt
  obtain ⟨parsed, clean⟩ := pristine _ below
  cases origin : (doc.node (twin b)).origin with
  | written text =>
    rw [Node.isWritten, Node.buffer?, origin] at parsed
    cases parsed
  | parsed buffer span =>
    rw [forest.printNode_clean (alike.origin.trans origin) (alike.dirty.trans clean),
      sound.forest.printNode_clean origin clean, copied.longer.toExtends.buffer (sound.bufferLt origin)]

/-- A copy of a node offers what the node does. -/
theorem Offers.copy {twin : NodeId → NodeId} (offers : doc.Offers callees t source actions)
    (copied : Duplicated doc doc' twin t) (sound : doc.Sound) (forest : doc'.Forest) :
    doc'.Offers callees doc.nodes.size source actions := by
  have like := copied.likeness sound forest offers.pristine
  have more := (copied.sprouted.topLt doc.nodes.size (by simp)).2
  have top : twin doc.nodes.size = t ∧ doc.nodes.size ≤ doc.nodes.size ∧ doc.nodes.size < doc'.nodes.size ∧
      doc.Below t t :=
    ⟨copied.original, Nat.le_refl _, more, Below.refl doc t⟩
  refine ⟨more, ?_, ?_, like.barren top offers.barren, fun y under => ?_⟩
  · rw [like.text top, offers.text]
  · rw [like.dispatches sound.forest callees top, offers.dispatches]
  · obtain ⟨_, below, rfl, le, lt, _⟩ := like.below top under
    have alike := copied.twins y le lt
    rw [Node.isWritten, Node.buffer?, alike.origin, alike.dirty]
    exact offers.pristine _ below

/-- What is below the root of a tree that was added behind the nodes is there as well. -/
theorem Adopted.below_new {buffer : BufferId} {tree : Syntax.Tree} (adopted : Adopted doc doc' buffer tree)
    (below : doc'.Below doc.nodes.size x) : doc.nodes.size ≤ x ∧ x < doc'.nodes.size := by
  induction below with
  | refl => exact adopted.sprouted.topLt _ (List.mem_singleton.mpr rfl)
  | tail _ edge ih =>
    obtain ⟨gt, lt, _⟩ := adopted.sprouted.child _ ih.1 ih.2 _ edge
    exact ⟨Nat.le_trans ih.1 (Nat.le_of_lt gt), lt⟩

/-- Whether no object literal of a tree has a bare namespace key. -/
def Spaceless (doc : Document) (t : NodeId) : Prop :=
  ∀ y, doc.Below t y → doc.role y = .object → ∀ e ∈ doc.entries y, doc.entryIdentifier? e ≠ some Model.namespaceName

/-- The tree of a snippet without bare namespace keys offers its text. -/
theorem offers_parsed [Reader] {snippet : List Char} (read : doc.parseExpression snippet = .ok (doc', t))
    (spaceless : doc'.Spaceless t) : doc'.Offers callees t (doc'.text t) (doc'.dispatches callees t) := by
  obtain ⟨rfl, tree, _, adopted⟩ := parseExpression_adopted read
  refine ⟨(adopted.below_new (Below.refl doc' _)).2, rfl, rfl, fun y below object =>
    recognize_none (spaceless y below object), fun y below => ?_⟩
  obtain ⟨le, lt⟩ := adopted.below_new below
  obtain ⟨_, _, mirrors⟩ := adopted.mirrors y le lt
  refine ⟨?_, mirrors.clean⟩
  rw [Node.isWritten, Node.buffer?, mirrors.origin]
  rfl

/-! ## Written pairs -/

/-- A written key spells a name. -/
structure KeyFor (doc : Document) (name : List Char) (quote : Char) (key : NodeId) : Prop where
  kind : (doc.node key).kind = keyKind name
  origin : (doc.node key).origin = .written (some (Literal.keyText name quote))
  field : (doc.node key).field = some "key"
  leaf : doc.children key = []
  bare : (doc.node key).firstChildren = []

/-- A written pair holds a value under a name. -/
structure Heads (doc : Document) (name : List Char) (quote : Char) (pair value : NodeId) : Prop where
  kind : (doc.node pair).kind = "pair"
  origin : (doc.node pair).origin = .written none
  bare : (doc.node pair).firstChildren = []
  field : (doc.node value).field = some "value"
  parts : ∃ key, doc.children pair = [key, value] ∧ doc.KeyFor name quote key

namespace Heads
variable {pair : NodeId} (heads : doc.Heads name quote pair value)
include heads

theorem role : doc.role pair = .pair := by
  rw [Document.role, Node.role, heads.kind]
  rfl

theorem value_child : value ∈ doc.children pair := by
  obtain ⟨key, children, _⟩ := heads.parts
  simp [children]

theorem pairValue? : doc.pairValue? pair = some value := by
  obtain ⟨key, children, isKey⟩ := heads.parts
  rw [Document.pairValue?, if_pos heads.role, childByField?, children]
  simp [isKey.field, heads.field]

/-- A written pair is found under its name. -/
theorem entryKey? (forest : doc.Forest) (isQuote : Literal.isQuote quote = true) :
    doc.entryKey? pair = some (if Literal.isBareName name then .identifier name else .literal name) := by
  obtain ⟨key, children, isKey⟩ := heads.parts
  have found : doc.childByField? pair "key" = some key := by
    rw [childByField?, children]
    simp [isKey.field]
  have text : doc.text key = Literal.keyText name quote := by
    show doc.render key [] _ = _
    have leaf : (doc.node key).children.isEmpty = true := List.isEmpty_iff.mpr isKey.leaf
    rw [forest.render_eq]
    simp only [printWith, isKey.origin, leaf, if_true]
  simp only [Document.entryKey?, heads.role, found, Option.map_some, keyOf, text]
  rw [Document.role, Node.role, isKey.kind, keyKind, Literal.keyText]
  by_cases bare : Literal.isBareName name = true
  · simp only [if_pos bare]
    rfl
  · simp only [if_neg bare]
    rw [show Role.ofKind "string" = .stringLiteral from rfl]
    simp only [Literal.unquoted_quoted isQuote]

theorem entryName? (forest : doc.Forest) (isQuote : Literal.isQuote quote = true) :
    doc.entryName? pair = some name := by
  rw [Document.entryName?, heads.entryKey? forest isQuote]
  split <;> rfl

/-- A written pair stays as it is if it keeps its parts. -/
theorem calm (calm : Calm doc doc' zone loose) (forest : doc.Forest) (outside : ¬ zone pair)
    (inner : ∀ c ∈ doc.children pair, c ≠ value → ¬ zone c) : doc'.Heads name quote pair value := by
  have lt := lt_of_role heads.role (by decide)
  have held : ∀ c ∈ doc.children pair, c ∉ loose := fun c child listed =>
    (calm.free c listed (forest.childLt child)).not_child forest child
  obtain ⟨key, children, isKey⟩ := heads.parts
  have child : key ∈ doc.children pair := by simp [children]
  have keyLt := forest.childLt child
  have distinct := forest.distinct pair
  refine ⟨(calm.ext.kind pair lt).trans heads.kind, (calm.ext.origin pair lt).trans heads.origin,
    (calm.ext.firstChildren pair lt).trans heads.bare, ?_, key, (calm.children pair lt outside).trans children, ?_⟩
  · exact (calm.field value (forest.childLt heads.value_child) (held value heads.value_child)).trans heads.field
  · refine ⟨(calm.ext.kind key keyLt).trans isKey.kind, (calm.ext.origin key keyLt).trans isKey.origin,
      (calm.field key keyLt (held key child)).trans isKey.field, ?_, (calm.ext.firstChildren key keyLt).trans isKey.bare⟩
    refine (calm.children key keyLt (inner key child ?_)).trans isKey.leaf
    rintro rfl
    simp [children] at distinct

end Heads

namespace PairWritten

/-- Writing a pair changes no tree. -/
theorem calm (made : PairWritten doc doc' name quote value) (steady : Steady doc doc') (free : doc.Free value) :
    Calm doc doc' (fun _ => False) [value] where
  ext := steady.ext
  children x lt _ := steady.children x lt
  field x lt other := by rw [made.others x lt (by simpa using other)]
  replaces x lt other := by rw [made.others x lt (by simpa using other)]
  dirty x lt _ := by
    by_cases here : x = value
    · rw [here, made.held]
    · rw [made.others x lt here]
  free y member _ := by
    rw [List.mem_singleton.mp member]
    exact free

variable (made : PairWritten doc doc' name quote value)
include made

theorem role_pair : doc'.role (doc.nodes.size + 1) = .pair := by
  rw [role, made.pair]
  rfl

theorem children_pair : doc'.children (doc.nodes.size + 1) = [doc.nodes.size, value] := by
  rw [children, made.pair]

/-- The pair has the name that it was written for. -/
theorem heads : doc'.Heads name quote (doc.nodes.size + 1) value where
  kind := by rw [made.pair]; rfl
  origin := by rw [made.pair]; rfl
  bare := by rw [made.pair]; rfl
  field := by rw [made.held]
  parts := by
    refine ⟨doc.nodes.size, made.children_pair, ?_, ?_, ?_, ?_, ?_⟩
    all_goals first | rw [children, made.key] | rw [made.key]
    all_goals rfl

theorem entryBody : doc'.entryBody (doc.nodes.size + 1) = value := by
  rw [Document.entryBody, made.heads.pairValue?, Option.getD_some]

theorem entryName? (forest : doc'.Forest) (isQuote : Literal.isQuote quote = true) :
    doc'.entryName? (doc.nodes.size + 1) = some name :=
  made.heads.entryName? forest isQuote

theorem entryIdentifier? (forest : doc'.Forest) (isQuote : Literal.isQuote quote = true)
    (bare : Literal.isBareName name = true) : doc'.entryIdentifier? (doc.nodes.size + 1) = some name := by
  rw [Document.entryIdentifier?, made.heads.entryKey? forest isQuote, if_pos bare]
  rfl

theorem barren (within : doc'.Barren value) : doc'.Barren (doc.nodes.size + 1) := by
  have key : doc'.children doc.nodes.size = [] := by
    rw [children, made.key]
    rfl
  have plain : doc'.role doc.nodes.size ≠ .object := by
    rw [role, made.key]
    show Role.ofKind (keyKind name) ≠ .object
    unfold keyKind
    split <;> decide
  intro y below object
  rcases Relation.ReflTransGen.cases_head below with rfl | ⟨x, edge, under⟩
  · rw [made.role_pair] at object
    cases object
  rw [made.children_pair] at edge
  rcases List.mem_cons.mp edge with rfl | later
  · rcases Relation.ReflTransGen.cases_head under with rfl | ⟨x, edge', _⟩
    · exact absurd object plain
    · rw [key] at edge'
      cases edge'
  · rw [List.mem_singleton.mp later] at under
    exact within y under object

/-- A pair above a tree is recorded with what the tree offers. -/
theorem entryTells (forest : doc'.Forest) (isQuote : Literal.isQuote quote = true)
    (offers : doc'.Offers callees value source actions) :
    doc'.EntryTells callees c (doc.nodes.size + 1) (entryRecord c name source actions) where
  name := made.entryName? forest isQuote
  source := by rw [made.entryBody, offers.text, entryRecord]
  dispatches := by rw [made.entryBody, offers.dispatches, entryRecord]

end PairWritten

end Document

end StoreModels
