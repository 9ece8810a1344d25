import StoreModels.Proofs.Document.Alongside
import StoreModels.Proofs.Record.Outside

/-!
What is found in two documents that change alongside: counterparts have entries of the same names at the same places, and
the container of a model in one document is the counterpart of its container in the other.
-/
namespace StoreModels
open List (Forall₂)

namespace Document
variable {doc doc' : Document} {B : BufferId → BufferId → Prop} {R : NodeId → NodeId → Prop} {x y c d : NodeId}
  {name n : List Char} {due : NodeId → Char → Prop} {m : Model} {container : Container}

/-- Two children of counterparts at the same place. -/
structure Facing (doc doc' : Document) (R : NodeId → NodeId → Prop) (name : List Char) (due : NodeId → Char → Prop)
    (x y c d : NodeId) : Prop where
  here : (c, d) ∈ (doc.children x).zip (doc'.children y)
  beside : Beside doc doc' R name due x c d

theorem Facing.child (facing : Facing doc doc' R name due x y c d) : c ∈ doc.children x := (List.of_mem_zip facing.here).1

theorem Facing.child' (facing : Facing doc doc' R name due x y c d) : d ∈ doc'.children y := (List.of_mem_zip facing.here).2

/-- Two children of object literals at the same place are entries, or neither is one. -/
theorem Facing.isEntry (facing : Facing doc doc' R name due x y c d) (parts : Counterparts doc doc' B R)
    (object : doc.role x = .object) : (doc'.role d).isEntry = (doc.role c).isEntry := by
  rcases facing.beside.met with rel | unmet
  · rw [parts.role rel]
  · cases unmet with
    | value _ pair =>
      rw [object] at pair
      cases pair
    | entry _ _ entry _ stranded =>
      obtain ⟨_, heads, _⟩ := stranded.heads
      rw [entry, heads.role]
      rfl

namespace Alongside
variable (along : Alongside doc doc' B R name due)
include along

theorem facing (rel : R x y) : Forall₂ (Facing doc doc' R name due x y) (doc.children x) (doc'.children y) :=
  (forall₂_mem_zip (along.children rel)).imp fun _ _ both => ⟨both.1, both.2⟩

theorem childByField? (rel : R x y) (field : String) :
    Option.Rel (Facing doc doc' R name due x y) (doc.childByField? x field) (doc'.childByField? y field) :=
  forall₂_find? (along.facing rel) fun _ _ _ _ facing => by rw [facing.beside.field]

theorem pairValue? (rel : R x y) :
    Option.Rel (Facing doc doc' R name due x y) (doc.pairValue? x) (doc'.pairValue? y) := by
  unfold Document.pairValue?
  rw [along.parts.role rel]
  split
  · exact along.childByField? rel "value"
  · exact .none

theorem entries (rel : R x y) (object : doc.role x = .object) :
    Forall₂ (Facing doc doc' R name due x y) (doc.entries x) (doc'.entries y) :=
  forall₂_filter (along.facing rel) fun _ _ _ _ facing => (facing.isEntry along.parts object).symm

variable (plain : doc.Plain) (shaped : doc.Shaped) (shaped' : doc'.Shaped) (files : B 0 0)
include plain shaped shaped' files

/-- Tokens that are counterparts have the same text. -/
theorem text (rel : R x y) (token : (doc.role x).isToken = true) : doc'.text y = doc.text x := by
  refine along.parts.printNode_eq along.sound along.sound' shaped shaped'
    (S := fun x y => R x y ∧ ∀ z, doc.Below x z → doc.role z ≠ .object ∧ doc.role z ≠ .pair) ?_
    ⟨rel, fun z below => plain.below token below⟩ files
  intro x y ⟨related, bare⟩
  refine ⟨related, forall₂_imp_mem (along.children related) fun c child d _ beside => ?_⟩
  refine ⟨⟨beside.met.resolve_right fun unmet => ?_, fun z below => bare z ((Below.child child).trans below)⟩, beside.seated⟩
  obtain ⟨noObject, noPair⟩ := bare x (Below.refl doc x)
  exact unmet.role.elim noPair noObject

theorem keyOf (rel : R x y) : doc'.keyOf y = doc.keyOf x := by
  have text := along.text plain shaped shaped' files rel
  unfold Document.keyOf
  rw [along.parts.role rel]
  split
  next is => rw [text (by rw [is]; rfl)]
  next is => rw [text (by rw [is]; rfl)]
  next is => rw [text (by rw [is]; rfl)]
  next is => rw [text (by rw [is]; rfl)]
  next => rfl

/-- What is due for a pair is no key. -/
theorem keyed (rel : R x y) (other : doc.role x ≠ .object) {field : String} (noValue : field ≠ "value") :
    (doc'.childByField? y field).map doc'.keyOf = (doc.childByField? x field).map doc.keyOf := by
  have found := along.childByField? rel field
  generalize is : doc.childByField? x field = left at found ⊢
  generalize doc'.childByField? y field = right at found ⊢
  cases found with
  | none => rfl
  | some facing =>
    refine congrArg some (along.keyOf plain shaped shaped' files (facing.beside.met.resolve_right fun unmet => ?_))
    cases unmet with
    | value _ _ value => exact noValue (Option.some.inj ((childByField?_some is).2.symm.trans value))
    | entry _ object => exact other object

theorem entryKey? (rel : R x y) : doc'.entryKey? y = doc.entryKey? x := by
  unfold Document.entryKey?
  rw [along.parts.role rel]
  split
  next is => exact along.keyed plain shaped shaped' files rel (by rw [is]; decide) (by decide)
  next is => exact along.keyed plain shaped shaped' files rel (by rw [is]; decide) (by decide)
  next is => rw [along.text plain shaped shaped' files rel (by rw [is]; rfl)]
  · rfl
  · rfl

theorem entryName? (rel : R x y) : doc'.entryName? y = doc.entryName? x := by
  rw [Document.entryName?, along.entryKey? plain shaped shaped' files rel, Document.entryName?]

theorem entryIdentifier? (rel : R x y) : doc'.entryIdentifier? y = doc.entryIdentifier? x := by
  rw [Document.entryIdentifier?, along.entryKey? plain shaped shaped' files rel, Document.entryIdentifier?]

/-- Counterparts have entries with a name at the same places, if what is due has the name of what stands in its place. -/
theorem entriesNamed (rel : R x y) (object : doc.role x = .object)
    (named : ∀ c ∈ doc.children x, ∀ quote, due c quote → doc.entryName? c = some name ∧ Literal.isQuote quote = true) :
    Forall₂ (Facing doc doc' R name due x y) (doc.entriesNamed x n) (doc'.entriesNamed y n) := by
  refine forall₂_filter (along.entries rel object) fun c _ d _ facing => ?_
  suffices same : doc'.entryName? d = doc.entryName? c by rw [same]
  rcases facing.beside.met with related | unmet
  · exact along.entryName? plain shaped shaped' files related
  · cases unmet with
    | value _ pair =>
      rw [object] at pair
      cases pair
    | entry next _ _ _ stranded =>
      obtain ⟨_, heads, _⟩ := stranded.heads
      obtain ⟨is, isQuote⟩ := named c facing.child _ next
      rw [is, heads.entryName? along.sound'.forest isQuote]

/-- Counterparts have their last entries with a bare name at the same place, if what is due has the bare name of what
    stands in its place. -/
theorem entryNamed? (rel : R x y) (object : doc.role x = .object)
    (bare : ∀ c ∈ doc.children x, ∀ d, Unmet doc doc' R name due x c d →
      doc'.entryIdentifier? d = doc.entryIdentifier? c) :
    Option.Rel (Facing doc doc' R name due x y) (doc.entryNamed? x n) (doc'.entryNamed? y n) := by
  refine forall₂_getLast? (forall₂_filter (along.entries rel object) fun c _ d _ facing => ?_)
  suffices same : doc'.entryIdentifier? d = doc.entryIdentifier? c by rw [same]
  rcases facing.beside.met with related | unmet
  · exact along.entryIdentifier? plain shaped shaped' files related
  · exact bare c facing.child d unmet

end Alongside

/-- Nothing is due for a model: neither its entries nor their values. -/
def Spared (doc : Document) (due : NodeId → Char → Prop) (o : NodeId) : Prop :=
  ∀ c quote, due c quote → c ∉ doc.children o ∧ ∀ e ∈ doc.children o, doc.role e = .pair → c ∉ doc.children e

namespace Alongside
variable (along : Alongside doc doc' B R name due)
include along

/-- Where nothing is due in a model, it has counterparts as values of its entries. -/
theorem modelValue {o e e' : NodeId} (spared : doc.Spared due o) (child : e ∈ doc.children o) (rel : R e e') :
    Option.Rel R (doc.pairValue? e) (doc'.pairValue? e') := by
  have values := along.pairValue? rel
  generalize is : doc.pairValue? e = left at values ⊢
  generalize doc'.pairValue? e' = right at values ⊢
  cases values with
  | none => exact .none
  | some facing =>
    refine .some (facing.beside.met.resolve_right fun unmet => ?_)
    obtain ⟨quote, next⟩ := unmet.pending
    exact (spared _ quote next).2 e child (pairValue?_some is).1 facing.child

variable (plain : doc.Plain) (shaped : doc.Shaped) (shaped' : doc'.Shaped) (files : B 0 0)
  (object : doc.role m.object = .object) (self : R m.object m.object) (spared : doc.Spared due m.object)
include plain shaped shaped' files object self spared

/-- Where nothing is due in a model, it has counterparts as entries. -/
theorem modelEntry (n : List Char) : Option.Rel R (doc.entryNamed? m.object n) (doc'.entryNamed? m.object n) := by
  have unmetNone : ∀ c ∈ doc.children m.object, ∀ d, ¬ Unmet doc doc' R name due m.object c d := fun c child d unmet => by
    obtain ⟨quote, next⟩ := unmet.pending
    exact (spared c quote next).1 child
  have found := along.entryNamed? plain shaped shaped' files (n := n) self object fun c child d unmet =>
    absurd unmet (unmetNone c child d)
  generalize doc.entryNamed? m.object n = left at found ⊢
  generalize doc'.entryNamed? m.object n = right at found ⊢
  cases found with
  | none => exact .none
  | some facing => exact .some (facing.beside.met.resolve_right (unmetNone _ facing.child _))

/-- The containers of a model are counterparts. -/
theorem containerObject? {k : NodeId} (found : m.containerObject? doc container = .ok (some k)) :
    ∃ k', m.containerObject? doc' container = .ok (some k') ∧ R k k' := by
  have entry := along.modelEntry plain shaped shaped' files object self spared container.key.toList
  rw [Model.containerObject?] at found
  split at found
  next => cases found
  next e named =>
    rw [named] at entry
    generalize is : doc'.entryNamed? m.object container.key.toList = there at entry
    cases entry with
    | @some _ e' rel =>
      have body : R (doc.entryBody e) (doc'.entryBody e') := by
        have values := along.modelValue spared (entryNamed?_some named).1 rel
        unfold Document.entryBody
        generalize doc.pairValue? e = left at values ⊢
        generalize doc'.pairValue? e' = right at values ⊢
        cases values with
        | none => exact rel
        | some both => exact both
      simp only at found
      split at found
      next role =>
        cases found
        refine ⟨doc'.entryBody e', ?_, body⟩
        simp only [Model.containerObject?, is, along.parts.role body, role, if_true]
      next => cases found

/-- A model is quoted alike if its namespace is a literal. -/
theorem quote (literal : ∀ e v, doc.entryNamed? m.object Model.namespaceName = some e → doc.pairValue? e = some v →
    doc.role v = .stringLiteral) : m.quote doc' = m.quote doc := by
  have entry := along.modelEntry plain shaped shaped' files object self spared Model.namespaceName
  unfold Model.quote
  generalize here : doc.entryNamed? m.object Model.namespaceName = left at entry ⊢
  generalize doc'.entryNamed? m.object Model.namespaceName = right at entry ⊢
  cases entry with
  | none => rfl
  | @some e e' rel =>
    have values := along.modelValue spared (entryNamed?_some here).1 rel
    simp only [Option.bind_some]
    generalize value : doc.pairValue? e = left at values ⊢
    generalize doc'.pairValue? e' = right at values ⊢
    cases values with
    | none => rfl
    | some both =>
      have is := literal e _ here value
      exact congrArg Literal.quoteOf (along.text plain shaped shaped' files both (by rw [is]; rfl))

end Alongside

end Document

end StoreModels
