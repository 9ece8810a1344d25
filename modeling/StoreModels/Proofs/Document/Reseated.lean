import StoreModels.Proofs.Document.Plain
import StoreModels.Proofs.Record.Echoed

/-!
Texts that are read again after an expression has taken some places in them: that of the value of a pair, or that of an
entry without a value, which makes way for a pair with the expression under a bare name. The tree is the same but for
these places, where it echoes the expression.
-/
namespace StoreModels
open Syntax (Span Tree Role)
open Text (slice Exchange reindent movedTo)

/-! ## Trees -/

namespace Syntax

/-- A place that an expression takes in a text. -/
structure Seat where
  span : Span
  /-- The indentation of the lines that stand there. -/
  indent : List Char
  /-- Whether it is the place of a value, and not that of an entry. -/
  ofValue : Bool

/-- An expression that takes places in a text. -/
structure Substitute where
  /-- The text that the expression is a part of. -/
  text : List Char
  expression : Tree
  /-- The bare name that it gets where an entry makes way. -/
  name : List Char
  /-- The line break of the text where it goes. -/
  newline : List Char

/-- Whether a node in another one has the place, and can make way for the expression. -/
def Seat.isAt (seat : Seat) (above : Role) (tree : Tree) : Bool :=
  decide (tree.span = seat.span) &&
    if seat.ofValue then above == .pair && tree.field == some "value"
    else above == .object && (Role.ofKind tree.kind).isEntry && Role.ofKind tree.kind != .pair

namespace Substitute
variable (substitute : Substitute) (text text' : List Char) (seats : List Seat)

/-- The text of the expression, moved over to an indentation. -/
def moved (indent : List Char) : List Char :=
  reindent (slice substitute.text substitute.expression.span.start substitute.expression.span.stop) indent substitute.newline

/-- The change of the text at a place. -/
def exchange (seat : Seat) : Exchange :=
  (seat.span, (if seat.ofValue then [] else substitute.name ++ [':', ' ']) ++ substitute.moved seat.indent)

/-- A tree is the expression: it starts where the moved text does, and what stands on one line lies where it has moved. -/
def Stands (indent : List Char) (tree : Tree) : Prop :=
  slice text' tree.span.start (tree.span.start + (substitute.moved indent).length) = substitute.moved indent ∧
    substitute.expression.Echoes substitute.text (fun place => tree.span.start +
      movedTo indent substitute.newline substitute.text substitute.expression.span.start place) tree

instance (indent : List Char) (tree : Tree) : Decidable (substitute.Stands text' indent tree) :=
  inferInstanceAs (Decidable (_ ∧ _))

/-- A tree holds the expression under the name. -/
def Heads (indent : List Char) (tree : Tree) : Prop :=
  Role.ofKind tree.kind = .pair ∧ match tree.children with
    | [key, mark, value] =>
      (key.field = some "key" ∧ Role.ofKind key.kind = .propertyIdentifier ∧ key.children = [] ∧
        slice text' key.span.start key.span.stop = substitute.name) ∧
      (mark.field = none ∧ Role.ofKind mark.kind = .other ∧ mark.children = []) ∧
      value.field = some "value" ∧ substitute.Stands text' indent value
    | _ => False

instance (indent : List Char) (tree : Tree) : Decidable (substitute.Heads text' indent tree) := by
  unfold Heads
  rcases tree.children with _ | ⟨_, _ | ⟨_, _ | ⟨_, _ | _⟩⟩⟩ <;> infer_instance

/-- A tree stands in a place that the expression has taken. -/
def Takes (seat : Seat) (old new : Tree) : Prop :=
  new.field = old.field ∧
    if seat.ofValue then substitute.Stands text' seat.indent new else substitute.Heads text' seat.indent new

instance (seat : Seat) (old new : Tree) : Decidable (substitute.Takes text' seat old new) :=
  inferInstanceAs (Decidable (_ ∧ ite _ _ _))

mutual

/-- A tree is read again once the expression has taken its places: the nodes have the same kinds and fields, and the
    tokens have the same texts. -/
def Keeps : Tree → Tree → Prop
  | .node kind named field span children, tree' =>
    tree'.kind = kind ∧ tree'.named = named ∧ tree'.field = field ∧
      if (Role.ofKind kind).isToken then
        slice text' tree'.span.start tree'.span.stop = slice text span.start span.stop ∧
          ∀ c ∈ tree'.children, c.children = [] ∧ (Role.ofKind c.kind).isMute = true
      else KeepsAll (Role.ofKind kind) children tree'.children

/-- Trees in a node are read again one by one. -/
def KeepsAll (above : Role) : List Tree → List Tree → Prop
  | [], [] => True
  | tree :: trees, tree' :: trees' =>
    (match seats.find? (·.isAt above tree) with
      | some seat => substitute.Takes text' seat tree tree'
      | none => Keeps tree tree') ∧ KeepsAll above trees trees'
  | _, _ => False

end

mutual

/-- Whether a tree is read again. -/
def decideKeeps : (tree tree' : Tree) → Decidable (substitute.Keeps text text' seats tree tree')
  | .node kind _ _ span children, tree' =>
    have := decideKeepsAll (Role.ofKind kind) children tree'.children
    inferInstanceAs (Decidable (_ ∧ _ ∧ _ ∧
      if (Role.ofKind kind).isToken then
        slice text' tree'.span.start tree'.span.stop = slice text span.start span.stop ∧
          ∀ c ∈ tree'.children, c.children = [] ∧ (Role.ofKind c.kind).isMute = true
      else substitute.KeepsAll text text' seats (Role.ofKind kind) children tree'.children))

/-- Whether trees are read again one by one. -/
def decideKeepsAll (above : Role) :
    (trees trees' : List Tree) → Decidable (substitute.KeepsAll text text' seats above trees trees')
  | [], [] => .isTrue trivial
  | tree :: trees, tree' :: trees' =>
    have := decideKeeps tree tree'
    have := decideKeepsAll above trees trees'
    have : Decidable (match seats.find? (·.isAt above tree) with
        | some seat => substitute.Takes text' seat tree tree'
        | none => substitute.Keeps text text' seats tree tree') := by
      cases seats.find? (·.isAt above tree) <;> infer_instance
    inferInstanceAs (Decidable (_ ∧ _))
  | [], _ :: _ | _ :: _, [] => .isFalse id

end

instance (tree tree' : Tree) : Decidable (substitute.Keeps text text' seats tree tree') :=
  substitute.decideKeeps text text' seats tree tree'

variable {substitute : Substitute} {text text' : List Char} {seats : List Seat} {tree tree' : Tree}

theorem keepsAll_iff {above : Role} {trees trees' : List Tree} :
    substitute.KeepsAll text text' seats above trees trees' ↔
      List.Forall₂ (fun tree tree' => match seats.find? (·.isAt above tree) with
        | some seat => substitute.Takes text' seat tree tree'
        | none => substitute.Keeps text text' seats tree tree') trees trees' := by
  induction trees generalizing trees' with
  | nil => cases trees' <;> simp [KeepsAll]
  | cons tree rest ih => cases trees' <;> simp [KeepsAll, ih]

end Substitute

end Syntax

open Syntax (Seat Substitute)

/-! ## Nodes -/

namespace Document
variable {doc doc' : Document} {substitute : Substitute} {seats : List Seat} {seat : Seat} {indent : List Char}
  {above : Role} {x y : NodeId}

/-- A node in another one has the place, and can make way for the expression. -/
def SitsAt (doc : Document) (seat : Seat) (above : Role) (x : NodeId) : Prop :=
  (doc.node x).origin = .parsed 0 seat.span ∧
    if seat.ofValue then above = .pair ∧ (doc.node x).field = some "value"
    else above = .object ∧ (doc.role x).isEntry = true ∧ doc.role x ≠ .pair

/-- A node is the expression. -/
def IsSubstitute (doc' : Document) (substitute : Substitute) (indent : List Char) (y : NodeId) : Prop :=
  ∃ tree, doc'.Bears 0 y tree ∧ substitute.Stands doc'.source indent tree

/-- A node holds the expression under the name. -/
def HoldsSubstitute (doc' : Document) (substitute : Substitute) (indent : List Char) (y : NodeId) : Prop :=
  doc'.role y = .pair ∧ ∃ key mark value, doc'.children y = [key, mark, value] ∧
    ((doc'.node key).field = some "key" ∧ doc'.role key = .propertyIdentifier ∧ doc'.children key = [] ∧
      doc'.text key = substitute.name) ∧
    ((doc'.node mark).field = none ∧ doc'.role mark = .other ∧ doc'.children mark = []) ∧
    (doc'.node value).field = some "value" ∧ doc'.IsSubstitute substitute indent value

/-- A node of a file is read again once the expression has taken its places. -/
def Reseats (doc doc' : Document) (substitute : Substitute) (seats : List Seat) (x y : NodeId) : Prop :=
  ∃ tree tree', doc.Bears 0 x tree ∧ doc'.Bears 0 y tree' ∧ substitute.Keeps doc.source doc'.source seats tree tree'

/-- What stands in a node is read again, or has made way. -/
def ReseatsIn (doc doc' : Document) (substitute : Substitute) (seats : List Seat) (above : Role) (x y : NodeId) : Prop :=
  (doc'.node y).field = (doc.node x).field ∧
    ((∃ seat ∈ seats, doc.SitsAt seat above x ∧
        if seat.ofValue then doc'.IsSubstitute substitute seat.indent y else doc'.HoldsSubstitute substitute seat.indent y) ∨
      (∀ seat ∈ seats, ¬ doc.SitsAt seat above x) ∧ doc.Reseats doc' substitute seats x y)

theorem Bears.sitsAt {tree : Tree} (bears : doc.Bears 0 x tree) (field : (doc.node x).field = tree.field) :
    seat.isAt above tree = true ↔ doc.SitsAt seat above x := by
  rw [SitsAt, field, bears.role, bears.origin, Seat.isAt]
  cases seat.ofValue <;> simp [and_assoc]

theorem Bears.leaf {tree : Tree} (bears : doc.Bears 0 x tree) (leaf : tree.children = []) : doc.children x = [] := by
  have children := bears.children
  rw [leaf] at children
  exact List.forall₂_nil_right_iff.mp children

theorem Bears.holdsSubstitute {tree : Tree} (bears : doc'.Bears 0 y tree) (forest' : doc'.Forest)
    (heads : substitute.Heads doc'.source indent tree) : doc'.HoldsSubstitute substitute indent y := by
  obtain ⟨pair, parts⟩ := heads
  refine ⟨bears.role.trans pair, ?_⟩
  have children := bears.children
  split at parts
  next key mark value is =>
    rw [is] at children
    obtain ⟨k, more, first, behind, split⟩ := List.forall₂_cons_right_iff.mp children
    obtain ⟨m, last, second, ending, rfl⟩ := List.forall₂_cons_right_iff.mp behind
    obtain ⟨v, none, third, nothing, rfl⟩ := List.forall₂_cons_right_iff.mp ending
    cases nothing
    obtain ⟨⟨keyed, named, alone, text⟩, ⟨unkeyed, other, leaf⟩, valued, stands⟩ := parts
    refine ⟨k, m, v, split, ⟨?_, ?_, first.2.leaf alone, ?_⟩, ⟨?_, ?_, second.2.leaf leaf⟩, ?_, value, third.2, stands⟩
    · rw [first.1, keyed]
    · rw [first.2.role, named]
    · rw [first.2.text forest']
      exact text
    · rw [second.1, unkeyed]
    · rw [second.2.role, other]
    · rw [third.1, valued]
  next => exact parts.elim

namespace Reseats
variable (reseats : doc.Reseats doc' substitute seats x y)
include reseats

theorem kind : (doc'.node y).kind = (doc.node x).kind := by
  obtain ⟨tree, tree', bears, bears', keeps⟩ := reseats
  cases tree
  rw [bears'.kind, bears.kind, keeps.1]
  rfl

theorem role : doc'.role y = doc.role x := by
  rw [Document.role, Node.role, reseats.kind, Document.role, Node.role]

/-- A token has its text again. -/
theorem text_token (forest : doc.Forest) (forest' : doc'.Forest) (token : (doc.role x).isToken = true) :
    doc'.text y = doc.text x := by
  obtain ⟨tree, tree', bears, bears', keeps⟩ := reseats
  rw [bears'.text forest', bears.text forest]
  rw [bears.role] at token
  cases tree with
  | node kind named field span parts =>
    have rest := keeps.2.2.2
    rw [if_pos (show (Role.ofKind kind).isToken = true from token)] at rest
    exact rest.1

/-- The parts of a token are leaves again. -/
theorem leaves (token : (doc.role x).isToken = true) :
    ∀ c ∈ doc'.children y, doc'.children c = [] ∧ (doc'.role c).isMute = true := by
  obtain ⟨tree, tree', bears, bears', keeps⟩ := reseats
  rw [bears.role] at token
  intro c member
  obtain ⟨t, listed, held⟩ := forall₂_mem_left bears'.children member
  have plain : t.children = [] ∧ (Role.ofKind t.kind).isMute = true := by
    cases tree with
    | node kind named field span parts =>
      have rest := keeps.2.2.2
      rw [if_pos (show (Role.ofKind kind).isToken = true from token)] at rest
      exact rest.2 t listed
  exact ⟨held.2.leaf plain.1, by rw [held.2.role]; exact plain.2⟩

/-- What is in a node other than a token is read again one by one, or has made way. -/
theorem children (forest' : doc'.Forest) (inner : (doc.role x).isToken = false) :
    List.Forall₂ (doc.ReseatsIn doc' substitute seats (doc.role x)) (doc.children x) (doc'.children y) := by
  obtain ⟨tree, tree', bears, bears', keeps⟩ := reseats
  have each : ∀ {above : Role} {xs ys : List NodeId} {trees trees' : List Tree}, List.Forall₂ (doc.BearsField 0) xs trees →
      substitute.KeepsAll doc.source doc'.source seats above trees trees' →
      List.Forall₂ (doc'.BearsField 0) ys trees' → List.Forall₂ (doc.ReseatsIn doc' substitute seats above) xs ys := by
    intro above xs ys trees trees' held pairs held'
    rw [Substitute.keepsAll_iff] at pairs
    induction pairs generalizing xs ys with
    | nil =>
      cases held
      cases held'
      exact .nil
    | @cons t t' _ _ here _ ih =>
      obtain ⟨c, rest, first, later, rfl⟩ := List.forall₂_cons_right_iff.mp held
      obtain ⟨c', rest', first', later', rfl⟩ := List.forall₂_cons_right_iff.mp held'
      refine .cons ?_ (ih later later')
      split at here
      next seat found =>
        have sits := (first.2.sitsAt first.1).mp (by simpa using List.find?_some found)
        refine ⟨by rw [first.1, first'.1, here.1], .inl ⟨seat, List.mem_of_find?_eq_some found, sits, ?_⟩⟩
        have takes := here.2
        split at takes
        next value =>
          rw [if_pos value]
          exact ⟨t', first'.2, takes⟩
        next entry =>
          rw [if_neg entry]
          exact first'.2.holdsSubstitute forest' takes
      next none =>
        refine ⟨?_, .inr ⟨fun seat member sits => ?_, t, t', first.2, first'.2, here⟩⟩
        · rw [first.1, first'.1]
          cases t
          exact here.2.2.1
        · exact absurd ((first.2.sitsAt first.1).mpr sits) (by simpa using List.find?_eq_none.mp none seat member)
  rw [bears.role] at inner ⊢
  cases tree with
  | node kind named field span parts =>
    have rest := keeps.2.2.2
    rw [if_neg (by rw [show (Role.ofKind kind).isToken = false from inner]; decide)] at rest
    exact each bears.children rest bears'.children

end Reseats

/-! ## The expression -/

/-- What is below a node that bears a tree lies inside of the tree's part of the text. -/
theorem Bears.inside {buffer : BufferId} {tree : Tree} {text : List Char} {span : Span} (bears : doc.Bears buffer x tree)
    (conforms : tree.Conforms text) (below : doc.Below x y) (origin : (doc.node y).origin = .parsed buffer span) :
    tree.span.start ≤ span.start ∧ span.start ≤ span.stop ∧ span.stop ≤ tree.span.stop := by
  induction below using Relation.ReflTransGen.head_induction_on generalizing tree with
  | refl =>
    cases origin.symm.trans bears.origin
    exact ⟨Nat.le_refl _, (conforms tree (by simp [Tree.subtrees_eq])).1.1.le, Nat.le_refl _⟩
  | @head p c child _ ih =>
    obtain ⟨t, listed, held⟩ := forall₂_mem_left bears.children child
    have within : tree.span.start ≤ t.span.start ∧ t.span.start ≤ t.span.stop ∧ t.span.stop ≤ tree.span.stop :=
      (conforms tree (by simp [Tree.subtrees_eq])).1.1.mem (List.mem_map_of_mem (List.mem_map_of_mem listed))
    have deeper := ih held.2 fun u member => conforms u (Tree.mem_subtrees_child listed member)
    omega

/-- The expression is echoed where it stands. -/
theorem IsSubstitute.echoes (is : doc'.IsSubstitute substitute indent y) {buffer : BufferId}
    (bears : doc.Bears buffer x substitute.expression) (text : doc.buffer buffer = substitute.text)
    (conforms : substitute.expression.Conforms substitute.text) :
    ∃ passage : Passage doc doc' x, doc.Echoes doc' passage x y := by
  obtain ⟨tree, bears', there, echoes⟩ := is
  have keeps : ∀ {z span}, doc.Below x z → (doc.node z).origin = .parsed buffer span →
      Text.IsBare (slice (doc.buffer buffer) span.start span.stop) →
      slice (doc'.buffer 0)
        (tree.span.start + movedTo indent substitute.newline substitute.text substitute.expression.span.start span.start)
        (tree.span.start + movedTo indent substitute.newline substitute.text substitute.expression.span.start span.stop) =
        slice (doc.buffer buffer) span.start span.stop := by
    intro z span below origin bare
    obtain ⟨low, le, high⟩ := bears.inside conforms below origin
    rw [text] at bare ⊢
    exact Text.slice_moved there low le high bare
  refine ⟨⟨buffer, 0, fun place => tree.span.start +
    movedTo indent substitute.newline substitute.text substitute.expression.span.start place, keeps⟩,
    .refl doc x, substitute.expression, tree, bears, bears', ?_⟩
  rw [show doc.buffer _ = substitute.text from text]
  exact echoes

end Document

end StoreModels
