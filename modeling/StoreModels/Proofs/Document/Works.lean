import StoreModels.Proofs.Document.Calm

/-!
Work below some nodes. Its moves change children below these nodes alone, and some other nodes get no new places. A tree
that is neither above nor below any of the nodes worked below stays as it is, as long as nothing moves it.
-/
namespace StoreModels
open Syntax (Reader)

namespace Document
variable {doc doc' doc'' : Document} {zone zone' kept kept' : NodeId → Prop} {o p u x y : NodeId}

/-! ## Trees aside -/

/-- Two nodes of which neither lies below the other. -/
def Aside (doc : Document) (x y : NodeId) : Prop := ¬ doc.Below x y ∧ ¬ doc.Below y x

theorem Aside.symm (aside : doc.Aside x y) : doc.Aside y x := ⟨aside.2, aside.1⟩

/-- What is below one of two nodes aside of each other is not below the other. -/
theorem Aside.apart (aside : doc.Aside x y) (forest : doc.Forest) {z : NodeId} (below : doc.Below x z) : ¬ doc.Below y z :=
  fun below' => (forest.below_or_below below below').elim aside.1 aside.2

/-- What is below one of two nodes aside of each other is aside of the other. -/
theorem Aside.below (aside : doc.Aside x y) (forest : doc.Forest) {z : NodeId} (below : doc.Below x z) : doc.Aside z y :=
  ⟨fun up => aside.1 (below.trans up), aside.apart forest below⟩

/-! ## Work -/

section
variable [Reader]

/-- A move below the nodes of a zone that finds no new places for some nodes to keep. -/
structure Work (zone kept : NodeId → Prop) (doc doc' : Document) : Prop where
  move : Move doc doc'
  inside : ∀ x < doc.nodes.size, doc'.children x ≠ doc.children x → ∃ o, zone o ∧ doc.Below o x
  stays : ∀ x, kept x → ∀ p, doc'.parent? x = some p → doc.parent? x = some p

/-- Some moves below the nodes of a zone that find no new places for some nodes to keep. -/
def Works (zone kept : NodeId → Prop) : Document → Document → Prop := Relation.ReflTransGen (Work zone kept)

theorem Works.moves (works : Works zone kept doc doc') : doc.Moves doc' :=
  Relation.ReflTransGen.mono (fun _ _ work => work.move) _ _ works

theorem Works.trans (first : Works zone kept doc doc') (second : Works zone kept doc' doc'') : Works zone kept doc doc'' :=
  Relation.ReflTransGen.trans first second

theorem Work.works (work : Work zone kept doc doc') : Works zone kept doc doc' := Relation.ReflTransGen.single work

theorem Works.mono (works : Works zone kept doc doc') (wider : ∀ o, zone o → zone' o) (fewer : ∀ x, kept' x → kept x) :
    Works zone' kept' doc doc' :=
  Relation.ReflTransGen.mono (fun _ _ work =>
    ⟨work.move, fun x lt changed => (work.inside x lt changed).imp fun o both => ⟨wider o both.1, both.2⟩,
      fun x keep => work.stays x (fewer x keep)⟩) _ _ works

/-- Work below no node is work below any. -/
theorem Works.anywhere (works : Works (fun _ => False) kept doc doc') : Works zone kept doc doc' :=
  works.mono (fun _ impossible => impossible.elim) fun _ keep => keep

/-! ## Moves as work -/

/-- A move that only adds nodes is work below none. -/
theorem Move.work (move : Move doc doc') (node : ∀ x < doc.nodes.size, doc'.node x = doc.node x)
    (present : ∀ x, kept x → x < doc.nodes.size) : Work zone kept doc doc' where
  move := move
  inside x lt changed := by
    rw [Document.children, node x lt] at changed
    exact absurd rfl changed
  stays x keep p link := by
    rw [parent?, node x (present x keep)] at link
    exact link

theorem Joined.work {kind : String} {parts : List (Option String × NodeId)} (joined : Joined doc doc' kind parts)
    (move : Move doc doc') (present : ∀ x, kept x → x < doc.nodes.size)
    (others : ∀ x, kept x → x ∉ parts.map Prod.snd) : Work zone kept doc doc' where
  move := move
  inside x lt changed := absurd (joined.children_old lt) changed
  stays x keep p link := by
    rw [parent?, joined.node x (present x keep) (others x keep)] at link
    exact link

/-- A change below one node that gives no kept node a place. -/
theorem Edited.work {gone new : Option NodeId} (edited : Edited doc doc' p gone new) (move : Move doc doc') (inside : zone o)
    (below : doc.Below o p) (others : ∀ n, new = some n → ¬ kept n) : Work zone kept doc doc' where
  move := move
  inside x _ changed := by
    refine ⟨o, inside, ?_⟩
    by_cases same : x = p
    · exact same ▸ below
    · exact absurd (edited.hung.children x same) changed
  stays x keep p' link := by
    rw [edited.hung.parent, if_neg fun same => others x same.symm keep] at link
    split at link
    · cases link
    · exact link

end

/-! ## Work aside -/

/-- A node has its place aside of a zone, where it is kept. -/
structure Spares (zone kept : NodeId → Prop) (doc : Document) (u : NodeId) : Prop where
  lt : u < doc.nodes.size
  aside : ∀ o, zone o → doc.Aside o u
  above : ∀ x, doc.Below x u → kept x

namespace Work
variable [Reader] (work : Work zone kept doc doc') (sound : doc.Sound) (spares : Spares zone kept doc u)
include work sound spares

/-- Work aside of a tree changes nothing in it. -/
theorem calm : ∃ changed loose, Calm doc doc' changed loose ∧ doc.Apart changed u := by
  obtain ⟨loose, calm⟩ := work.move.calm sound
  refine ⟨_, loose, calm, fun z changed below => ?_⟩
  obtain ⟨o, inside, under⟩ := work.inside z (sound.forest.below_lt spares.lt below) changed
  exact (spares.aside o inside).apart sound.forest under below

/-- What is above a node that is to stay was above it. -/
theorem above (under : doc'.Below x u) : doc.Below x u := by
  have sound' := work.move.sound sound
  induction under using Relation.ReflTransGen.head_induction_on with
  | refl => exact Below.refl doc u
  | @head x c edge _ ih =>
    have link := work.stays c (spares.above c ih) x (sound'.forest.childParent edge)
    exact Relation.ReflTransGen.head (sound.forest.parentChild link) ih

/-- Work aside of a tree leaves it aside. -/
theorem stays_aside : Spares zone kept doc' u := by
  obtain ⟨changed, loose, calm, apart⟩ := work.calm sound spares
  refine ⟨Nat.lt_of_lt_of_le spares.lt calm.ext.size, fun o inside => ?_, fun x under => ?_⟩
  · obtain ⟨notAbove, notBelow⟩ := spares.aside o inside
    exact ⟨fun under => notAbove (work.above sound spares under),
      fun under => notBelow ((calm.below sound.forest spares.lt apart).mp under)⟩
  · exact spares.above x (work.above sound spares under)

end Work

end Document

end StoreModels
