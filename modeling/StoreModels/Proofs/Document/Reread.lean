import StoreModels.Model.Match
import StoreModels.Proofs.Document.Plain
import StoreModels.Proofs.Document.Trees

/-!
Texts that are read again after some of their string literals have been exchanged for others. The tree is the same but
for the places in the text and for these literals. So both files have the same object literals with the same entries
under the same bare names, and what they hold differs in the texts of the literals alone.
-/
namespace StoreModels
open Syntax (Span Tree Role)
open Text (slice Exchange)

/-! ## Trees -/

namespace Syntax.Tree

/-- The text that a token has once some string literals have been exchanged. -/
def tokenText (text : List Char) (exchanges : List Exchange) (kind : String) (span : Span) : List Char :=
  if Role.ofKind kind = .stringLiteral then (exchanges.lookup span).getD (slice text span.start span.stop)
  else slice text span.start span.stop

mutual

/-- A tree of a text is told again by one of a text in which some string literals have been exchanged: the nodes have
    the same kinds and fields, and the tokens have the same texts but for these literals. -/
def Retold (text text' : List Char) (exchanges : List Exchange) : Tree → Tree → Prop
  | .node kind named field span children, tree' =>
    tree'.kind = kind ∧ tree'.named = named ∧ tree'.field = field ∧
      if (Role.ofKind kind).isToken then
        slice text' tree'.span.start tree'.span.stop = tokenText text exchanges kind span ∧
          ∀ c ∈ tree'.children, c.children = [] ∧ (Role.ofKind c.kind).isMute = true
      else RetoldAll text text' exchanges children tree'.children

/-- Trees of a text are told again one by one. -/
def RetoldAll (text text' : List Char) (exchanges : List Exchange) : List Tree → List Tree → Prop
  | [], [] => True
  | tree :: trees, tree' :: trees' =>
    Retold text text' exchanges tree tree' ∧ RetoldAll text text' exchanges trees trees'
  | _, _ => False

end

mutual

/-- Whether a tree is told again. -/
def decideRetold (text text' : List Char) (exchanges : List Exchange) :
    (tree tree' : Tree) → Decidable (Retold text text' exchanges tree tree')
  | .node kind _ _ span children, tree' =>
    have := decideRetoldAll text text' exchanges children tree'.children
    inferInstanceAs (Decidable (_ ∧ _ ∧ _ ∧
      if (Role.ofKind kind).isToken then
        slice text' tree'.span.start tree'.span.stop = tokenText text exchanges kind span ∧
          ∀ c ∈ tree'.children, c.children = [] ∧ (Role.ofKind c.kind).isMute = true
      else RetoldAll text text' exchanges children tree'.children))

/-- Whether trees are told again one by one. -/
def decideRetoldAll (text text' : List Char) (exchanges : List Exchange) :
    (trees trees' : List Tree) → Decidable (RetoldAll text text' exchanges trees trees')
  | [], [] => .isTrue trivial
  | tree :: trees, tree' :: trees' =>
    have := decideRetold text text' exchanges tree tree'
    have := decideRetoldAll text text' exchanges trees trees'
    inferInstanceAs (Decidable (_ ∧ _))
  | [], _ :: _ | _ :: _, [] => .isFalse id

end

instance (text text' : List Char) (exchanges : List Exchange) (tree tree' : Tree) :
    Decidable (Retold text text' exchanges tree tree') :=
  decideRetold text text' exchanges tree tree'

variable {text text' : List Char} {exchanges : List Exchange} {tree tree' : Tree}

theorem retoldAll_iff {trees trees' : List Tree} :
    RetoldAll text text' exchanges trees trees' ↔ List.Forall₂ (Retold text text' exchanges) trees trees' := by
  induction trees generalizing trees' with
  | nil => cases trees' <;> simp [RetoldAll]
  | cons tree rest ih => cases trees' <;> simp [RetoldAll, ih]

namespace Retold

theorem head (retold : Retold text text' exchanges tree tree') :
    tree'.kind = tree.kind ∧ tree'.named = tree.named ∧ tree'.field = tree.field := by
  cases tree
  exact ⟨retold.1, retold.2.1, retold.2.2.1⟩

theorem token (retold : Retold text text' exchanges tree tree') (token : (Role.ofKind tree.kind).isToken = true) :
    slice text' tree'.span.start tree'.span.stop = tokenText text exchanges tree.kind tree.span ∧
      ∀ c ∈ tree'.children, c.children = [] ∧ (Role.ofKind c.kind).isMute = true := by
  cases tree with
  | node kind named field span children =>
    have rest := retold.2.2.2
    rw [if_pos (show (Role.ofKind kind).isToken = true from token)] at rest
    exact rest

theorem children (retold : Retold text text' exchanges tree tree') (inner : (Role.ofKind tree.kind).isToken = false) :
    List.Forall₂ (Retold text text' exchanges) tree.children tree'.children := by
  cases tree with
  | node kind named field span children =>
    have rest := retold.2.2.2
    rw [if_neg (by rw [show (Role.ofKind kind).isToken = false from inner]; decide)] at rest
    exact retoldAll_iff.mp rest

end Retold

end Syntax.Tree

/-! ## Nodes -/

namespace Document
variable {doc doc' : Document} {exchanges : List Exchange} {x y : NodeId}

/-- A node of a file is told again by one of a file whose string literals have been exchanged. -/
def Retells (doc doc' : Document) (exchanges : List Exchange) (x y : NodeId) : Prop :=
  ∃ tree tree', doc.Bears 0 x tree ∧ doc'.Bears 0 y tree' ∧ tree.Retold doc.source doc'.source exchanges tree'

/-- A child is told again by one that fills the same field. -/
def RetellsField (doc doc' : Document) (exchanges : List Exchange) (x y : NodeId) : Prop :=
  (doc'.node y).field = (doc.node x).field ∧ doc.Retells doc' exchanges x y

namespace Retells
variable (retells : doc.Retells doc' exchanges x y)
include retells

theorem kind : (doc'.node y).kind = (doc.node x).kind := by
  obtain ⟨tree, tree', bears, bears', retold⟩ := retells
  rw [bears'.kind, bears.kind, retold.head.1]

theorem role : doc'.role y = doc.role x := by
  rw [Document.role, Node.role, retells.kind, Document.role, Node.role]

/-- What is in a node other than a token is told again one by one. -/
theorem children (inner : (doc.role x).isToken = false) :
    List.Forall₂ (doc.RetellsField doc' exchanges) (doc.children x) (doc'.children y) := by
  obtain ⟨tree, tree', bears, bears', retold⟩ := retells
  rw [bears.role] at inner
  have each : ∀ {xs ys : List NodeId} {trees trees' : List Tree}, List.Forall₂ (doc.BearsField 0) xs trees →
      List.Forall₂ (Tree.Retold doc.source doc'.source exchanges) trees trees' →
      List.Forall₂ (doc'.BearsField 0) ys trees' → List.Forall₂ (doc.RetellsField doc' exchanges) xs ys := by
    intro xs ys trees trees' held pairs held'
    induction pairs generalizing xs ys with
    | nil =>
      cases held
      cases held'
      exact .nil
    | cons here _ ih =>
      obtain ⟨c, rest, first, later, rfl⟩ := List.forall₂_cons_right_iff.mp held
      obtain ⟨c', rest', first', later', rfl⟩ := List.forall₂_cons_right_iff.mp held'
      refine .cons ⟨?_, _, _, first.2, first'.2, here⟩ (ih later later')
      rw [first.1, first'.1, here.head.2.2]
  exact each bears.children (retold.children inner) bears'.children

/-- The parts of a token are leaves again. -/
theorem leaves (token : (doc.role x).isToken = true) :
    ∀ c ∈ doc'.children y, doc'.children c = [] ∧ (doc'.role c).isMute = true := by
  obtain ⟨tree, tree', bears, bears', retold⟩ := retells
  rw [bears.role] at token
  intro c member
  obtain ⟨t, listed, held⟩ := forall₂_mem_left bears'.children member
  obtain ⟨bare, other⟩ := (retold.token token).2 t listed
  refine ⟨?_, by rw [held.2.role]; exact other⟩
  have none := held.2.children
  rw [bare] at none
  exact List.forall₂_nil_right_iff.mp none

section
variable (forest : doc.Forest) (forest' : doc'.Forest)
include forest forest'

/-- A string literal has its text again, or the one that it was exchanged for. -/
theorem text_literal (literal : doc.role x = .stringLiteral) :
    ∃ span, (doc.node x).origin = .parsed 0 span ∧ doc'.text y = (exchanges.lookup span).getD (doc.text x) := by
  obtain ⟨tree, tree', bears, bears', retold⟩ := retells
  rw [bears.role] at literal
  refine ⟨tree.span, bears.origin, ?_⟩
  have told := (retold.token (by rw [literal]; rfl)).1
  rw [Tree.tokenText, if_pos literal] at told
  rw [bears'.text forest', bears.text forest]
  exact told

/-- Other tokens have their texts again. -/
theorem text_token (token : (doc.role x).isToken = true) (other : doc.role x ≠ .stringLiteral) :
    doc'.text y = doc.text x := by
  obtain ⟨tree, tree', bears, bears', retold⟩ := retells
  rw [bears.role] at token other
  have told := (retold.token token).1
  rw [Tree.tokenText, if_neg other] at told
  rw [bears'.text forest', bears.text forest]
  exact told

end

end Retells

/-! ## Entries -/

section
variable {field : String} (retells : doc.Retells doc' exchanges x y)
include retells

/-- The first child that fills a field is told again by the first that does. -/
theorem Retells.childByField? (inner : (doc.role x).isToken = false) (field : String) :
    Option.Rel (doc.Retells doc' exchanges) (doc.childByField? x field) (doc'.childByField? y field) := by
  have found := forall₂_find? (p := fun c => (doc.node c).field == some field)
    (q := fun c => (doc'.node c).field == some field) (retells.children inner) fun c _ d _ both => by rw [both.1]
  unfold Document.childByField?
  generalize List.find? _ (doc.children x) = left at found ⊢
  generalize List.find? _ (doc'.children y) = right at found ⊢
  cases found with
  | none => exact .none
  | some both => exact .some both.2

theorem Retells.entries (object : doc.role x = .object) :
    List.Forall₂ (doc.Retells doc' exchanges) (doc.entries x) (doc'.entries y) := by
  have inner : (doc.role x).isToken = false := by
    rw [object]
    rfl
  refine List.Forall₂.imp (fun _ _ both => both.2) (List.rel_filter (fun c d both => ?_) (retells.children inner))
  simp only [both.2.role]

theorem Retells.pairValue? :
    Option.Rel (doc.Retells doc' exchanges) (doc.pairValue? x) (doc'.pairValue? y) := by
  unfold Document.pairValue?
  rw [retells.role]
  split
  next pair => exact retells.childByField? (by rw [pair]; rfl) "value"
  next => exact .none

/-- What an entry holds is told again. -/
theorem Retells.entryBody : doc.Retells doc' exchanges (doc.entryBody x) (doc'.entryBody y) := by
  have value := retells.pairValue?
  unfold Document.entryBody
  generalize doc.pairValue? x = left at value ⊢
  generalize doc'.pairValue? y = right at value ⊢
  cases value with
  | none => exact retells
  | some both => exact both

variable (forest : doc.Forest) (forest' : doc'.Forest)
include forest forest'

/-- A key is the same bare name again, or none. -/
theorem Retells.keyOf : (doc'.keyOf y).identifier? = (doc.keyOf x).identifier? := by
  have text := retells.text_token forest forest'
  unfold Document.keyOf
  rw [retells.role]
  split
  next is => rw [text (by rw [is]; rfl) (by rw [is]; decide)]
  next is => rw [text (by rw [is]; rfl) (by rw [is]; decide)]
  all_goals simp only [EntryKey.identifier?]

theorem Retells.entryIdentifier? : doc'.entryIdentifier? y = doc.entryIdentifier? x := by
  have keyed : ∀ field, (doc.role x).isToken = false →
      ((doc'.childByField? y field).map doc'.keyOf).bind EntryKey.identifier? =
        ((doc.childByField? x field).map doc.keyOf).bind EntryKey.identifier? := by
    intro field inner
    rw [Option.bind_map, Option.bind_map]
    refine rel_bind_eq (retells.childByField? inner field) fun k k' told => ?_
    exact told.keyOf forest forest'
  unfold Document.entryIdentifier? Document.entryKey?
  rw [retells.role]
  split
  next is => exact keyed "key" (by rw [is]; rfl)
  next is => exact keyed "name" (by rw [is]; rfl)
  next is => rw [retells.text_token forest forest' (by rw [is]; rfl) (by rw [is]; decide)]
  all_goals rfl

end

/-! ## Object literals -/

/-- The object literals in a node are told again one by one. -/
theorem Retells.literals {n m : Nat} (plain : doc.Plain) (fits : doc.Fits n x) (fits' : doc'.Fits m y)
    (retells : doc.Retells doc' exchanges x y) :
    List.Forall₂ (doc.Retells doc' exchanges) ((doc.descend n x).filter fun z => doc.role z = .object)
      ((doc'.descend m y).filter fun z => doc'.role z = .object) := by
  induction n generalizing m x y with
  | zero => exact fits.elim
  | succ n ih =>
    cases m with
    | zero => exact fits'.elim
    | succ m =>
      have inside : ∀ c ∈ doc.children x, doc.Fits n c := fits
      have inside' : ∀ c ∈ doc'.children y, doc'.Fits m c := fits'
      have top : List.Forall₂ (doc.Retells doc' exchanges) (if doc.role x = .object then [x] else [])
          (if doc'.role y = .object then [y] else []) := by
        rw [retells.role]
        split
        · exact .cons retells .nil
        · exact .nil
      rw [literals_succ, literals_succ]
      refine List.rel_append top ?_
      cases token : (doc.role x).isToken with
      | true =>
        rw [literals_leaves fun c child => plain.leaves token child, literals_leaves (retells.leaves token)]
        exact .nil
      | false =>
        refine forall₂_flatMap (retells.children token) fun c member d member' both => ?_
        exact ih (inside c member) (inside' d member') both.2

/-- The object literals of a file are told again one by one. -/
theorem Retells.objects (plain : doc.Plain) (forest : doc.Forest) (forest' : doc'.Forest)
    (present : doc.root < doc.nodes.size) (present' : doc'.root < doc'.nodes.size)
    (retells : doc.Retells doc' exchanges doc.root doc'.root) :
    List.Forall₂ (doc.Retells doc' exchanges) doc.objects doc'.objects :=
  retells.literals plain (forest.fits present) (forest'.fits present')

end Document

end StoreModels
