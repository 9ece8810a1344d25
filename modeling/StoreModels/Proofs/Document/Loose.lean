import StoreModels.Proofs.Document.Moves

/-!
Loose nodes: free ones whose trees hold none of some nodes that edits are about to work below. Every new node is loose;
a loose one stays so until it gets a place; and it may be put anywhere below the nodes that it does not hold.
-/
namespace StoreModels
open Syntax (Tree Role Reader)

namespace Document
variable {doc doc' : Document} {id x y o p q : NodeId} {held : List NodeId}

/-! ## Steady changes -/

/-- No node has got or lost children. -/
structure Steady (doc doc' : Document) : Prop where
  ext : Extends doc doc'
  children : ∀ x < doc.nodes.size, doc'.children x = doc.children x

theorem Prolongs.steady (longer : Prolongs doc doc') : Steady doc doc' :=
  ⟨longer.toExtends, fun x lt => by rw [Document.children, longer.node x lt, Document.children]⟩

theorem Joined.steady {kind : String} {parts : List (Option String × NodeId)} (joined : Joined doc doc' kind parts) :
    Steady doc doc' :=
  ⟨joined.toExtends, fun _ lt => joined.children_old lt⟩

theorem Steady.below (steady : Steady doc doc') (forest : doc.Forest) (lt : x < doc.nodes.size) :
    doc'.Below x y ↔ doc.Below x y := by
  constructor
  · intro below
    induction below with
    | refl => exact Below.refl doc x
    | tail _ edge ih => exact ih.tail (steady.children _ (forest.below_lt lt ih) ▸ edge)
  · intro below
    induction below with
    | refl => exact Below.refl doc' x
    | tail down edge ih => exact ih.tail ((steady.children _ (forest.below_lt lt down)).symm ▸ edge)

/-- What lies below a node stays there when nothing above it is taken away. -/
theorem Rehung.below_stays {gone new : Option NodeId} (hung : Rehung doc doc' p gone new) (below : doc.Below x y)
    (stays : ∀ g, gone = some g → ¬ doc.Below g y) : doc'.Below x y := by
  induction below using Relation.ReflTransGen.head_induction_on with
  | refl => exact Below.refl doc' y
  | @head a b edge down ih =>
    refine Relation.ReflTransGen.head ?_ ih
    by_cases here : a = p
    · subst here
      exact (hung.mem b).mpr (.inr ⟨edge, fun lost => stays b lost.symm down⟩)
    · show b ∈ doc'.children a
      rw [hung.children a here]
      exact edge

/-! ## Loose nodes -/

/-- A free node whose tree holds none of some nodes. -/
structure Loose (doc : Document) (held : List NodeId) (id : NodeId) : Prop where
  free : doc.Free id
  apart : ∀ o ∈ held, ¬ doc.Below id o

namespace Loose

/-- A loose node is not above anything below the nodes it does not hold. -/
theorem not_below (loose : Loose doc held id) (forest : doc.Forest) (member : o ∈ held) (below : doc.Below o p) :
    ¬ doc.Below id p := by
  intro above
  rcases forest.below_or_below above below with down | up
  · exact loose.apart o member down
  · have same := forest.below_root loose.free.root up
    exact loose.apart o member (same ▸ Below.refl doc id)

/-- A loose node stays so while no node gets or loses children, unless it gets a parent. -/
theorem steady (loose : Loose doc held id) (forest : doc.Forest) (steady : Steady doc doc')
    (root : doc'.parent? id = none) (replaces : (doc'.node id).replaces = none)
    (new : ∀ x, (doc'.node x).replaces = (doc.node x).replaces ∧
      (doc'.node x).firstChildren = (doc.node x).firstChildren) : Loose doc' held id where
  free :=
    { lt := Nat.lt_of_lt_of_le loose.free.lt steady.ext.size
      root
      tookNone := replaces
      lostNone := fun x => by
        rw [(new x).1]
        exact loose.free.lostNone x
      notFirst := fun x => by
        rw [(new x).2]
        exact loose.free.notFirst x }
  apart o member below := loose.apart o member ((steady.below forest loose.free.lt).mp below)

/-- A loose node stays so when another one gets a place elsewhere. -/
theorem edited {gone new : Option NodeId} (loose : Loose doc held id) (edited : Edited doc doc' p gone new)
    (other : some id ≠ new) (lost : ∀ n, new = some n → (doc'.node n).replaces ≠ some id)
    (apart : ¬ doc.Below id p) : Loose doc' held id where
  free :=
    { lt := edited.hung.size ▸ loose.free.lt
      root := by
        rw [edited.hung.parent, if_neg other]
        split
        · rfl
        · exact loose.free.root
      tookNone := (edited.replaces id other).trans loose.free.tookNone
      lostNone := fun x => by
        by_cases fresh : some x = new
        · exact lost x fresh.symm
        · rw [edited.replaces x fresh]
          exact loose.free.lostNone x
      notFirst := fun x => by
        by_cases lt : x < doc.nodes.size
        · rw [edited.ext.firstChildren x lt]
          exact loose.free.notFirst x
        · rw [node_beyond (edited.hung.size ▸ Nat.le_of_not_lt lt)]
          exact List.not_mem_nil }
  apart o member below := by
    rcases edited.hung.below below with before | ⟨above, _⟩
    · exact loose.apart o member before
    · exact apart above

end Loose

/-- The first of some new nodes is loose if it has no parent, took no place, and the others know nothing of it. -/
theorem loose_new (sound : doc.Sound) (present : ∀ o ∈ held, o < doc.nodes.size) (longer : Prolongs doc doc')
    (more : doc.nodes.size < doc'.nodes.size) (grown : Grown doc doc') (root : doc'.parent? doc.nodes.size = none)
    (tookNone : (doc'.node doc.nodes.size).replaces = none)
    (new : ∀ x, doc.nodes.size ≤ x → x < doc'.nodes.size →
      (∀ old, (doc'.node x).replaces = some old → old < doc.nodes.size) ∧
        doc.nodes.size ∉ (doc'.node x).firstChildren) :
    Loose doc' held doc.nodes.size := by
  refine ⟨⟨more, root, tookNone, ?_, ?_⟩, ?_⟩
  · intro x took
    by_cases lt : x < doc.nodes.size
    · rw [longer.node x lt] at took
      exact Nat.lt_irrefl _ (sound.takenLt took)
    · by_cases behind : x < doc'.nodes.size
      · exact Nat.lt_irrefl _ ((new x (Nat.le_of_not_lt lt) behind).1 _ took)
      · rw [node_beyond (Nat.le_of_not_lt behind)] at took
        cases took
  · intro x listed
    by_cases lt : x < doc.nodes.size
    · rw [longer.node x lt] at listed
      exact Nat.lt_irrefl _ (sound.firstLt listed)
    · by_cases behind : x < doc'.nodes.size
      · exact (new x (Nat.le_of_not_lt lt) behind).2 listed
      · rw [node_beyond (Nat.le_of_not_lt behind)] at listed
        cases listed
  · intro o member below
    exact Nat.not_lt_of_ge (grown.below_new (Nat.le_refl _) below) (present o member)

theorem Adopted.loose {buffer : BufferId} {tree : Tree} (adopted : Adopted doc doc' buffer tree) (sound : doc.Sound)
    (present : ∀ o ∈ held, o < doc.nodes.size) : Loose doc' held doc.nodes.size := by
  have more : doc.nodes.size < doc'.nodes.size := (adopted.sprouted.topLt _ (by simp)).2
  obtain ⟨_, _, top⟩ := adopted.mirrors _ (Nat.le_refl _) more
  refine loose_new sound present adopted.longer more adopted.grown adopted.root top.tookNone fun x le lt => ?_
  obtain ⟨_, _, mirrors⟩ := adopted.mirrors x le lt
  refine ⟨fun old took => ?_, fun listed => ?_⟩
  · rw [mirrors.tookNone] at took
    cases took
  · rw [mirrors.firstChildren] at listed
    exact Nat.not_lt_of_ge le (adopted.sprouted.child x le lt _ listed).1

theorem Duplicated.loose {twin : NodeId → NodeId} {original : NodeId} (copied : Duplicated doc doc' twin original)
    (sound : doc.Sound) (present : ∀ o ∈ held, o < doc.nodes.size) : Loose doc' held doc.nodes.size := by
  have more : doc.nodes.size < doc'.nodes.size := (copied.sprouted.topLt _ (by simp)).2
  refine loose_new sound present copied.longer more copied.grown copied.root copied.tookNone fun x le lt => ⟨?_, ?_⟩
  · intro old took
    rcases copied.sprouted.parent x le lt with top | ⟨p, _, from_size, below_size, member⟩
    · rw [List.mem_singleton.mp top, copied.tookNone] at took
      cases took
    · rw [(copied.twins p from_size below_size).replaces x member] at took
      exact sound.takenLt took
  · intro listed
    obtain ⟨rename, renames⟩ := copied.renames sound le lt
    rw [renames.firsts, List.mem_map] at listed
    obtain ⟨f, first, same⟩ := listed
    rcases renames.cases (copied.twins x le lt) f with ⟨c, child, _, is⟩ | ⟨_, is⟩
    · rw [is] at same
      exact Nat.not_lt_of_ge le (same ▸ (copied.sprouted.child x le lt c child).1)
    · rw [is] at same
      exact Nat.lt_irrefl _ (same ▸ sound.firstLt first)

theorem writeLeaf_loose (sound : doc.Sound) (present : ∀ o ∈ held, o < doc.nodes.size) (kind : String)
    (text : List Char) : Loose (doc.writeLeaf kind text).1 held doc.nodes.size := by
  have longer := writeLeaf_prolongs doc kind text
  have top := writeLeaf_node doc kind text doc.nodes.size
  rw [if_pos rfl] at top
  have size : (doc.writeLeaf kind text).1.nodes.size = doc.nodes.size + 1 := size_insert doc _
  refine ⟨⟨size ▸ Nat.lt_succ_self _, ?_, ?_, ?_, ?_⟩, ?_⟩
  · rw [parent?, top]
    rfl
  · rw [top]
    rfl
  · intro x took
    rw [writeLeaf_node] at took
    split at took
    · cases took
    · exact Nat.lt_irrefl _ (sound.takenLt took)
  · intro x listed
    rw [writeLeaf_node] at listed
    split at listed
    · cases listed
    · exact Nat.lt_irrefl _ (sound.firstLt listed)
  · intro o member below
    rcases Relation.ReflTransGen.cases_head below with same | ⟨c, edge, _⟩
    · exact Nat.lt_irrefl _ (same ▸ present o member)
    · rw [children, top] at edge
      cases edge

theorem Loose.writeLeaf (loose : Loose doc held id) (forest : doc.Forest) (kind : String) (text : List Char) :
    Loose (doc.writeLeaf kind text).1 held id := by
  have longer := writeLeaf_prolongs doc kind text
  refine loose.steady forest longer.steady ?_ ?_ fun x => ?_
  · rw [parent?, longer.node id loose.free.lt]
    exact loose.free.root
  · rw [longer.node id loose.free.lt]
    exact loose.free.tookNone
  · rw [writeLeaf_node]
    split
    · rename_i top
      rw [top, node_beyond (Nat.le_refl _)]
      exact ⟨rfl, rfl⟩
    · exact ⟨rfl, rfl⟩

/-- A node above loose ones is loose. -/
theorem Joined.loose {kind : String} {parts : List (Option String × NodeId)} (joined : Joined doc doc' kind parts)
    (sound : doc.Sound) (present : ∀ o ∈ held, o < doc.nodes.size)
    (loose : ∀ c ∈ parts.map Prod.snd, Loose doc held c) : Loose doc' held doc.nodes.size := by
  refine ⟨⟨joined.size ▸ Nat.lt_succ_self _, ?_, ?_, ?_, ?_⟩, ?_⟩
  · rw [parent?, joined.top]
    rfl
  · rw [joined.top]
    rfl
  · intro x took
    rcases joined.cases x with lt | rfl | missing
    · rw [joined.node_old lt] at took
      exact Nat.lt_irrefl _ (sound.takenLt took)
    · rw [joined.top] at took
      cases took
    · rw [missing] at took
      cases took
  · intro x listed
    rcases joined.cases x with lt | rfl | missing
    · rw [joined.node_old lt] at listed
      exact Nat.lt_irrefl _ (sound.firstLt listed)
    · rw [joined.top] at listed
      cases listed
    · rw [missing] at listed
      cases listed
  · intro o member below
    rcases Relation.ReflTransGen.cases_head below with same | ⟨c, edge, under⟩
    · exact Nat.lt_irrefl _ (same ▸ present o member)
    · rw [joined.children_top] at edge
      have part := loose c edge
      exact part.apart o member ((joined.steady.below sound.forest part.free.lt).mp under)

theorem Loose.joined {kind : String} {parts : List (Option String × NodeId)} (loose : Loose doc held id)
    (joined : Joined doc doc' kind parts) (forest : doc.Forest) (other : id ∉ parts.map Prod.snd) :
    Loose doc' held id := by
  have same := joined.node id loose.free.lt other
  refine loose.steady forest joined.steady ?_ ?_ joined.history
  · rw [parent?, same]
    exact loose.free.root
  · rw [same]
    exact loose.free.tookNone

end Document

end StoreModels
