import StoreModels.Proofs.Document.Moves
import StoreModels.Proofs.Record.Found

/-!
The order of the nodes of a tree. A walk keeps the nodes that are still to be visited, the next one first; it visits all
nodes below a node once, each before those below it, and ends. In a tree that is as it was parsed, the nodes of the walk
lie in the text one behind the other or one inside the other.
-/
namespace StoreModels
open Syntax (Outline Reader Span)
open Text (Ordered)

namespace Document
variable {doc : Document} {n : Nat} {x y z c : NodeId} {stack : List NodeId} {buffer : BufferId} {span span' : Span}

/-! ## Walks -/

/-- What a walk visits in some steps, and what is still to be visited then. A step visits the first node, whose children
    come next. -/
def visit (doc : Document) : Nat → List NodeId → List NodeId × List NodeId
  | 0, stack => ([], stack)
  | _ + 1, [] => ([], [])
  | steps + 1, id :: stack =>
    let (visited, left) := doc.visit steps (doc.children id ++ stack)
    (id :: visited, left)

theorem visit_nil (doc : Document) (steps : Nat) : doc.visit steps [] = ([], []) := by
  cases steps <;> rfl

/-- A walk visits some nodes in a number of steps before it goes on. -/
def Passes (doc : Document) (first visited : List NodeId) : Prop :=
  ∀ steps stack, doc.visit (visited.length + steps) (first ++ stack) =
    (visited ++ (doc.visit steps stack).1, (doc.visit steps stack).2)

theorem Passes.flatMap {xs : List NodeId} {below : NodeId → List NodeId} (each : ∀ x ∈ xs, doc.Passes [x] (below x)) :
    doc.Passes xs (xs.flatMap below) := by
  induction xs with
  | nil => simp [Passes]
  | cons x rest ih =>
    intro steps stack
    have later := ih (fun c member => each c (List.mem_cons_of_mem _ member)) steps stack
    have here := each x (by simp) ((rest.flatMap below).length + steps) (rest ++ stack)
    rw [List.singleton_append] at here
    rw [List.flatMap_cons, List.length_append, Nat.add_assoc, List.cons_append, here, later, List.append_assoc]

/-- A walk visits a node and all below it before it goes on. -/
theorem passes_descend (fits : doc.Fits n x) : doc.Passes [x] (doc.descend n x) := by
  induction n generalizing x with
  | zero => exact fits.elim
  | succ n ih =>
    intro steps stack
    have below := Passes.flatMap (fun c child => ih (fits c child)) steps stack
    rw [descend, List.length_cons, Nat.add_right_comm, List.singleton_append, visit, below]
    rfl

/-- The depth of a walk does not matter, as long as the walk ends within it. -/
theorem descend_deeper {m : Nat} (fits : doc.Fits n x) (le : n ≤ m) : doc.descend m x = doc.descend n x := by
  induction n generalizing m x with
  | zero => exact fits.elim
  | succ n ih =>
    obtain ⟨m, rfl⟩ : ∃ k, m = k + 1 := ⟨m - 1, by omega⟩
    rw [descend, descend, List.flatMap_congr fun c child => ih (fits c child) (by omega)]

section Forest
variable (forest : doc.Forest) (lt : x < doc.nodes.size)
include forest lt

theorem mem_descendants : y ∈ doc.descendants x ↔ doc.Below x y :=
  ⟨below_of_mem_descend, mem_descend (forest.fits lt)⟩

theorem nodup_descendants : (doc.descendants x).Nodup := nodup_descend forest (forest.fits lt)

/-- A node comes first, then its children follow one after the other, each with all below it. -/
theorem descendants_eq : doc.descendants x = x :: (doc.children x).flatMap doc.descendants := by
  obtain ⟨size, is⟩ := Nat.exists_eq_add_one.mpr (Nat.zero_lt_of_lt lt)
  have fits : doc.Fits (size + 1) x := is ▸ forest.fits lt
  rw [descendants, is, descend]
  refine congrArg (x :: ·) (List.flatMap_congr fun c child => ?_)
  rw [descendants, is]
  exact (descend_deeper (fits c child) (Nat.le_succ size)).symm

/-- A walk ends within the number of nodes, and has visited all below where it started. -/
theorem visit_descendants : doc.visit doc.nodes.size [x] = (doc.descendants x, []) := by
  have fewer : (doc.descendants x).length ≤ doc.nodes.size := by
    have inside : doc.descendants x ⊆ List.range doc.nodes.size := fun y member => by
      refine List.mem_range.mpr ?_
      rcases Relation.ReflTransGen.cases_tail (below_of_mem_descend member) with rfl | ⟨p, _, child⟩
      · exact lt
      · exact forest.childLt child
    simpa using (List.subperm_of_subset (nodup_descendants forest lt) inside).length_le
  have run : doc.visit ((doc.descendants x).length + (doc.nodes.size - (doc.descendants x).length)) [x] = _ :=
    passes_descend (forest.fits lt) _ []
  rwa [visit_nil, Nat.add_sub_cancel' fewer, List.append_nil] at run

/-- No node comes before one that it is below of. -/
theorem descendants_outer : (doc.descendants x).Pairwise fun y z => ¬ doc.Below z y := by
  have down : ∀ {n x}, doc.Fits n x → (doc.descend n x).Pairwise fun y z => ¬ doc.Below z y := by
    intro n
    induction n with
    | zero => exact fun fits => fits.elim
    | succ n ih =>
      intro x fits
      refine List.pairwise_cons.mpr ⟨fun y member above => ?_, List.pairwise_flatMap.mpr ⟨fun c child => ih (fits c child), ?_⟩⟩
      · obtain ⟨c, child, under⟩ := List.mem_flatMap.mp member
        exact forest.not_below_parent child ((below_of_mem_descend under).trans above)
      · refine (forest.distinct x).pairwise_of_forall_ne fun c child d child' other y left z right above => other ?_
        exact forest.sibling_eq child child' (below_of_mem_descend left) ((below_of_mem_descend right).trans above)
  exact down (forest.fits lt)

end Forest

/-! ## Trees as they were parsed -/

/-- A tree is as it was parsed from a text. -/
structure Pristine (doc : Document) (buffer : BufferId) (x : NodeId) : Prop where
  parsed : ∀ y, doc.Below x y → ∃ span, (doc.node y).origin = .parsed buffer span
  kept : ∀ y, doc.Below x y → (doc.node y).firstChildren = doc.children y

/-- A node was parsed from a part of a text that ends before that of another one starts. -/
def Behind (doc : Document) (buffer : BufferId) (x y : NodeId) : Prop :=
  ∃ span span', (doc.node x).origin = .parsed buffer span ∧ (doc.node y).origin = .parsed buffer span' ∧
    span.stop ≤ span'.start

/-- A node was parsed from a part of a text that starts before that of another one. -/
def StartsBefore (doc : Document) (buffer : BufferId) (x y : NodeId) : Prop :=
  ∃ span span', (doc.node x).origin = .parsed buffer span ∧ (doc.node y).origin = .parsed buffer span' ∧
    span.start < span'.start

/-- Nodes at places that are in order are so one behind the other. -/
theorem behind_of_ordered {xs : List NodeId} {outline : Outline} {start stop : Nat}
    (places : List.Forall₂ (doc.IsAt buffer) xs outline) (ordered : Ordered start stop (outline.map Prod.snd)) :
    xs.Pairwise (doc.Behind buffer) := by
  induction places generalizing start with
  | nil => exact List.Pairwise.nil
  | @cons x part xs outline place places ih =>
    obtain ⟨_, _, later⟩ := ordered
    refine List.pairwise_cons.mpr ⟨fun y member => ?_, ih later⟩
    obtain ⟨part', listed, place'⟩ := forall₂_mem_left places member
    exact ⟨_, _, place.2, place'.2, (later.mem (List.mem_map_of_mem listed)).1⟩

namespace Pristine
variable (pristine : doc.Pristine buffer x) (shaped : doc.Shaped)
include pristine

theorem below (below : doc.Below x y) : doc.Pristine buffer y :=
  ⟨fun z under => pristine.parsed z (below.trans under), fun z under => pristine.kept z (below.trans under)⟩

include shaped

theorem places (origin : (doc.node x).origin = .parsed buffer span) :
    ∃ outline : Outline, List.Forall₂ (doc.IsAt buffer) (doc.children x) outline ∧
      outline.Fits (doc.buffer buffer) (doc.node x).kind span := by
  obtain ⟨outline, places, fits⟩ := shaped.laid origin
  rw [pristine.kept x (Below.refl doc x)] at places
  exact ⟨outline, places, fits⟩

omit shaped in
/-- What a law asks for of nodes as they were parsed holds of the children that they have. -/
theorem lawful {law : List Char → String → Span → Outline → Prop} {outline : Outline} (laid : doc.Laid law)
    (origin : (doc.node x).origin = .parsed buffer span)
    (places : List.Forall₂ (doc.IsAt buffer) (doc.children x) outline) :
    law (doc.buffer buffer) (doc.node x).kind span outline := by
  obtain ⟨outline', places', holds⟩ := laid x buffer span origin
  rw [pristine.kept x (Below.refl doc x)] at places'
  have unique : Relator.RightUnique (doc.IsAt buffer) := fun c part part' here there => by
    exact Prod.ext (here.1.symm.trans there.1) (Origin.parsed.inj (here.2.symm.trans there.2)).2
  rwa [List.right_unique_forall₂' unique places places']

/-- A node lies in the text inside of those that it is below of. -/
theorem inside (below : doc.Below x y) (origin : (doc.node x).origin = .parsed buffer span)
    (origin' : (doc.node y).origin = .parsed buffer span') :
    span.start ≤ span'.start ∧ span'.start ≤ span'.stop ∧ span'.stop ≤ span.stop := by
  induction below using Relation.ReflTransGen.head_induction_on generalizing span with
  | refl =>
    cases origin.symm.trans origin'
    obtain ⟨_, _, fits⟩ := pristine.places shaped origin
    exact ⟨Nat.le_refl _, fits.1.le, Nat.le_refl _⟩
  | @head p c child under ih =>
    have pristine' := pristine.below (Below.child child)
    obtain ⟨outline, places, fits⟩ := pristine.places shaped origin
    obtain ⟨part, listed, place⟩ := forall₂_mem_left places child
    have within := fits.1.mem (List.mem_map_of_mem listed)
    have deeper := ih pristine' place.2
    omega

/-- Of two nodes, the earlier one is above the later one or lies before it in the text. -/
theorem descend_ordered (fits : doc.Fits n x) :
    (doc.descend n x).Pairwise fun y z => doc.Below y z ∨ doc.Behind buffer y z := by
  induction n generalizing x with
  | zero => exact fits.elim
  | succ n ih =>
    refine List.pairwise_cons.mpr ⟨fun y member => .inl ?_, List.pairwise_flatMap.mpr ⟨fun c child => ?_, ?_⟩⟩
    · obtain ⟨c, child, under⟩ := List.mem_flatMap.mp member
      exact (Below.child child).trans (below_of_mem_descend under)
    · exact ih (pristine.below (Below.child child)) (fits c child)
    · obtain ⟨span, origin⟩ := pristine.parsed x (Below.refl doc x)
      obtain ⟨outline, places, ordered, _⟩ := pristine.places shaped origin
      refine (behind_of_ordered places ordered).imp_of_mem fun {c d} left right behind y first z second => .inr ?_
      obtain ⟨s, s', here, there, before⟩ := behind
      have up := below_of_mem_descend first
      have up' := below_of_mem_descend second
      have pristine₁ := pristine.below (Below.child left)
      have pristine₂ := pristine.below (Below.child right)
      obtain ⟨t, origin₁⟩ := pristine₁.parsed y up
      obtain ⟨t', origin₂⟩ := pristine₂.parsed z up'
      have low := pristine₁.inside shaped up here origin₁
      have high := pristine₂.inside shaped up' there origin₂
      exact ⟨t, t', origin₁, origin₂, by omega⟩

end Pristine

/-- All trees of a file are as they were parsed at first. -/
theorem parse_pristine [Reader] {dialect : Syntax.Dialect} {source : List Char} {first : Document}
    (file : Document.parse dialect source = .ok first) (indent : List Char) (lt : x < first.nodes.size) :
    (first.withFallbackIndent indent).Pristine 0 x := by
  have each : ∀ y, (first.withFallbackIndent indent).Below x y → y < first.nodes.size := fun y below => by
    rcases Relation.ReflTransGen.cases_tail below with rfl | ⟨p, _, child⟩
    · exact lt
    · exact (parse_sound file).forest.childLt child
  refine ⟨fun y below => ?_, fun y below => ?_⟩ <;> obtain ⟨t, mirrors⟩ := parse_mirrors file (each y below)
  · exact ⟨t.span, mirrors.origin⟩
  · exact mirrors.firstChildren

/-! ## Laws of readers -/

section Laws
variable [Reader] {law : List Char → String → Span → Outline → Prop} {dialect : Syntax.Dialect} {source : List Char}
  {first : Document}

/-- What a law asks for of the tree that a file is read as holds of its nodes. -/
theorem parse_laid (file : Document.parse dialect source = .ok first) (meets : Reader.Meets law dialect source) :
    first.Laid law := by
  intro p buffer span origin
  have lt : p < first.nodes.size := by
    by_contra beyond
    rw [node_beyond (Nat.le_of_not_lt beyond)] at origin
    cases origin
  obtain ⟨program, read, mirrors⟩ := parse_tree file
  obtain ⟨t, below, mirrors⟩ := mirrors p lt
  cases origin.symm.trans mirrors.origin
  refine ⟨t.outline, ?_, ?_⟩
  · rw [mirrors.firstChildren, Syntax.Tree.outline, List.forall₂_map_right_iff]
    exact mirrors.children.imp fun c u reads => ⟨reads.kind, reads.origin⟩
  · rw [mirrors.kind, buffer, (parse_buffers file).1]
    exact meets program read t below

/-- What a law asks for of the trees that texts are read as holds of the nodes of a document that edits lead to. -/
theorem Reached.laid {doc : Document} (reached : Reached first doc) (file : Document.parse dialect source = .ok first)
    (meets : ∀ text ∈ doc.buffers, Reader.Meets law doc.dialect text) : doc.Laid law := by
  obtain ⟨indent, moves⟩ := reached.moves (parse_sound file)
  have start := (parse_sound file).withFallbackIndent indent
  have own : Reader.Meets law dialect source := reached.dialect_eq file ▸ meets source (reached.source_mem file)
  have laid : (first.withFallbackIndent indent).Laid law := fun p => parse_laid file own p
  exact moves.keep start (.of_all meets) laid fun move soundly learns laid => move.laid soundly learns laid

end Laws

end Document

end StoreModels
