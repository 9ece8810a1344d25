import StoreModels.Proofs.Document.Counterparts
import StoreModels.Proofs.Document.Trees
import StoreModels.Proofs.Record.Snippets

/-!
Growing side by side. When the same snippet is read into two documents, or related trees are copied in both, the new
nodes that stand at the same places of the new trees become counterparts: each node of a tree has one at most, since no
tree holds a node twice.
-/
namespace StoreModels
open Syntax (Span Tree Reader)
open List (Forall₂)

namespace Document
variable {doc doc' grown grown' : Document} {B : BufferId → BufferId → Prop} {R N : NodeId → NodeId → Prop}
  {top top' x y c d : NodeId}

/-! ## The same places below two nodes -/

/-- Two nodes stand at the same place below two others. -/
inductive Abreast (doc doc' : Document) (top top' : NodeId) : NodeId → NodeId → Prop
  | top : Abreast doc doc' top top' top top'
  | child {x y c d : NodeId} (above : Abreast doc doc' top top' x y)
    (here : (c, d) ∈ (doc.children x).zip (doc'.children y)) : Abreast doc doc' top top' c d

namespace Abreast

theorem swap (abreast : Abreast doc doc' top top' x y) : Abreast doc' doc top' top y x := by
  induction abreast with
  | top => exact .top
  | child _ here ih => exact .child ih (mem_zip_swap here)

theorem under (abreast : Abreast doc doc' top top' x y) : doc.Below top x := by
  induction abreast with
  | top => exact Below.refl doc top
  | child _ here ih => exact ih.tail (List.of_mem_zip here).1

theorem under' (abreast : Abreast doc doc' top top' x y) : doc'.Below top' y := abreast.swap.under

theorem unique (forest : doc.Forest) (root : doc.parent? top = none) (abreast : Abreast doc doc' top top' x y)
    (abreast' : Abreast doc doc' top top' x d) : y = d := by
  -- The parent of a node and its place among the children are unique, so the two ways down are one.
  induction abreast generalizing d with
  | top =>
    cases abreast' with
    | top => rfl
    | child _ here =>
      rw [forest.childParent (List.of_mem_zip here).1] at root
      cases root
  | child _ here ih =>
    cases abreast' with
    | top =>
      rw [forest.childParent (List.of_mem_zip here).1] at root
      cases root
    | child above' here' =>
      obtain rfl := forest.parent_unique (List.of_mem_zip here).1 (List.of_mem_zip here').1
      obtain rfl := ih above'
      exact mem_zip_unique (forest.distinct _) here here'

theorem biUnique (forest : doc.Forest) (forest' : doc'.Forest) (root : doc.parent? top = none)
    (root' : doc'.parent? top' = none) : Relator.BiUnique (Abreast doc doc' top top') :=
  ⟨fun _ _ _ left right => left.swap.unique forest' root' right.swap, fun _ _ _ left right => left.unique forest root right⟩

end Abreast

/-! ## More counterparts -/

/-- A number below a bound, and itself. -/
def Same (bound x y : Nat) : Prop := x = y ∧ x < bound

theorem Same.biUnique (bound : Nat) : Relator.BiUnique (Same bound) :=
  ⟨fun _ _ _ left right => left.1.trans right.1.symm, fun _ _ _ left right => left.1.symm.trans right.1⟩

/-- Every node is its own counterpart. -/
theorem Counterparts.self (sound : doc.Sound) : Counterparts doc doc (Same doc.buffers.length) (Same doc.nodes.size) where
  newline := rfl
  indentUnit := rfl
  textsOne := Same.biUnique _
  texts := fun ⟨same, lt⟩ => ⟨lt, same ▸ lt, same ▸ rfl⟩
  nodesOne := Same.biUnique _
  present := fun ⟨same, lt⟩ => ⟨lt, same ▸ lt⟩
  kind := fun ⟨same, _⟩ => same ▸ rfl
  origin := by
    rintro x _ ⟨rfl, _⟩
    cases is : (doc.node x).origin with
    | parsed => exact .parsed ⟨rfl, sound.bufferLt is⟩
    | written => exact .written _
  firsts := by
    rintro x _ ⟨rfl, _⟩
    exact List.forall₂_same.mpr fun f member => ⟨rfl, sound.firstLt member⟩

namespace Counterparts
variable (parts : Counterparts doc doc' B R)
include parts

/-- What counterparts have in common is what no edit changes. -/
theorem extend (ext : Extends doc grown) (ext' : Extends doc' grown') :
    Counterparts grown grown' B R where
  newline := by rw [ext.newline, ext'.newline, parts.newline]
  indentUnit := by rw [ext.indentUnit, ext'.indentUnit, parts.indentUnit]
  textsOne := parts.textsOne
  texts known := by
    obtain ⟨lt, lt', same⟩ := parts.texts known
    refine ⟨Nat.lt_of_lt_of_le lt ext.buffers.length_le, Nat.lt_of_lt_of_le lt' ext'.buffers.length_le, ?_⟩
    rw [ext.buffer lt, ext'.buffer lt', same]
  nodesOne := parts.nodesOne
  present rel := ⟨Nat.lt_of_lt_of_le (parts.present rel).1 ext.size, Nat.lt_of_lt_of_le (parts.present rel).2 ext'.size⟩
  kind rel := by rw [ext.kind _ (parts.present rel).1, ext'.kind _ (parts.present rel).2, parts.kind rel]
  origin rel := by
    rw [ext.origin _ (parts.present rel).1, ext'.origin _ (parts.present rel).2]
    exact parts.origin rel
  firsts rel := by
    rw [ext.firstChildren _ (parts.present rel).1, ext'.firstChildren _ (parts.present rel).2]
    exact parts.firsts rel

/-- Two texts that are the same become related. -/
theorem relateTexts {b b' : BufferId} (lt : b < doc.buffers.length) (lt' : b' < doc'.buffers.length)
    (same : doc'.buffer b' = doc.buffer b) (new : ∀ c, ¬ B b c ∧ ¬ B c b') :
    Counterparts doc doc' (fun c c' => B c c' ∨ (c = b ∧ c' = b')) R where
  newline := parts.newline
  indentUnit := parts.indentUnit
  textsOne := by
    constructor
    · rintro a c _ (left | ⟨first, first'⟩) (right | ⟨second, second'⟩)
      · exact parts.textsOne.1 left right
      · exact absurd (second' ▸ left) (new a).2
      · exact absurd (first' ▸ right) (new c).2
      · exact first.trans second.symm
    · rintro _ c c' (left | ⟨first, first'⟩) (right | ⟨second, second'⟩)
      · exact parts.textsOne.2 left right
      · exact absurd (second ▸ left) (new c).1
      · exact absurd (first ▸ right) (new c').1
      · exact first'.trans second'.symm
  texts := by
    rintro _ _ (known | ⟨rfl, rfl⟩)
    · exact parts.texts known
    · exact ⟨lt, lt', same⟩
  nodesOne := parts.nodesOne
  present := parts.present
  kind := parts.kind
  origin rel := by
    have meets := parts.origin rel
    generalize (doc.node _).origin = from_text at meets ⊢
    generalize (doc'.node _).origin = from_text' at meets ⊢
    cases meets with
    | parsed known => exact .parsed (.inl known)
    | written text => exact .written text
  firsts := parts.firsts

/-- Further nodes become counterparts. -/
theorem relate (one : Relator.BiUnique N) (new : ∀ {x y}, N x y → (∀ z, ¬ R x z) ∧ ∀ z, ¬ R z y)
    (present : ∀ {x y}, N x y → x < doc.nodes.size ∧ y < doc'.nodes.size)
    (kind : ∀ {x y}, N x y → (doc'.node y).kind = (doc.node x).kind)
    (origin : ∀ {x y}, N x y → Meets B (doc.node x).origin (doc'.node y).origin)
    (firsts : ∀ {x y}, N x y → Forall₂ (fun f f' => R f f' ∨ N f f') (doc.node x).firstChildren (doc'.node y).firstChildren) :
    Counterparts doc doc' B fun x y => R x y ∨ N x y where
  newline := parts.newline
  indentUnit := parts.indentUnit
  textsOne := parts.textsOne
  texts := parts.texts
  nodesOne := by
    constructor
    · rintro a c _ (left | left) (right | right)
      · exact parts.nodesOne.1 left right
      · exact absurd left ((new right).2 _)
      · exact absurd right ((new left).2 _)
      · exact one.1 left right
    · rintro _ c c' (left | left) (right | right)
      · exact parts.nodesOne.2 left right
      · exact absurd left ((new right).1 _)
      · exact absurd right ((new left).1 _)
      · exact one.2 left right
  present := by
    rintro _ _ (rel | rel)
    · exact parts.present rel
    · exact present rel
  kind := by
    rintro _ _ (rel | rel)
    · exact parts.kind rel
    · exact kind rel
  origin := by
    rintro _ _ (rel | rel)
    · exact parts.origin rel
    · exact origin rel
  firsts := by
    rintro _ _ (rel | rel)
    · exact (parts.firsts rel).imp fun _ _ both => .inl both
    · exact firsts rel

end Counterparts

end Document

end StoreModels
