import Mathlib.Data.List.Nodup
import Mathlib.Data.List.Perm.Subperm
import Mathlib.Logic.Relation
import StoreModels.Proofs.Document.Table

/-!
The nodes of a document form a forest: every node is listed once by the node that is its parent and by no other, and no
node lies below itself. So every walk down or up ends within the number of nodes, which is what the depths and heights
of the library allow for. A forest stays one when a tree of it is hung up below a node of another tree, when a subtree
is cut off, and when new nodes grow downwards.
-/
namespace StoreModels
namespace Document
variable {doc doc' : Document} {id x y p c : NodeId}

/-- A node lies below another one, or is the same. -/
def Below (doc : Document) : NodeId → NodeId → Prop := Relation.ReflTransGen fun id c => c ∈ doc.children id

theorem Below.refl (doc : Document) (id : NodeId) : doc.Below id id := Relation.ReflTransGen.refl

theorem Below.child (member : c ∈ doc.children id) : doc.Below id c := Relation.ReflTransGen.single member

theorem Below.trans (first : doc.Below x y) (second : doc.Below y id) : doc.Below x id :=
  Relation.ReflTransGen.trans first second

/-- The nodes are a forest. -/
structure Forest (doc : Document) : Prop where
  childLt : ∀ {id c}, c ∈ doc.children id → c < doc.nodes.size
  childParent : ∀ {id c}, c ∈ doc.children id → doc.parent? c = some id
  parentChild : ∀ {id c}, doc.parent? c = some id → c ∈ doc.children id
  distinct : ∀ id, (doc.children id).Nodup
  /-- Ranks that grow from parents to children: no node lies below itself. -/
  ranked : ∃ rank : NodeId → Nat, ∀ {id c}, c ∈ doc.children id → rank id < rank c

/-! ## Walks down and up -/

/-- All walks from a node take fewer than some number of steps. -/
def Within (next : NodeId → List NodeId) : Nat → NodeId → Prop
  | 0, _ => False
  | steps + 1, id => ∀ x ∈ next id, Within next steps x

/-- The walks down from a node end within a depth. -/
def Fits (doc : Document) : Nat → NodeId → Prop := Within doc.children

/-- The walk up from a node ends within a height. -/
def Climbs (doc : Document) : Nat → NodeId → Prop := Within fun id => (doc.parent? id).toList

theorem Within.mono {next : NodeId → List NodeId} {m n : Nat} (le : m ≤ n) (within : Within next m id) :
    Within next n id := by
  induction m generalizing n id with
  | zero => exact within.elim
  | succ m ih =>
    obtain ⟨n, rfl⟩ : ∃ k, n = k + 1 := ⟨n - 1, by omega⟩
    exact fun x member => ih (by omega) (within x member)

theorem Within.next {next : NodeId → List NodeId} {n : Nat} {x : NodeId} (within : Within next n id)
    (member : x ∈ next id) : Within next n x := by
  cases n with
  | zero => exact within.elim
  | succ n => exact Within.mono (Nat.le_succ n) (within x member)

/-- Distinct numbers that leave one out do not fill up the range. -/
theorem length_lt_of_fresh {seen : List NodeId} {size : Nat} (distinct : seen.Nodup) (small : ∀ a ∈ seen, a < size)
    (lt : id < size) (fresh : id ∉ seen) : seen.length < size := by
  have inside : id :: seen ⊆ List.range size := by
    intro a member
    rcases List.mem_cons.mp member with rfl | later
    · exact List.mem_range.mpr lt
    · exact List.mem_range.mpr (small a later)
  have bound := (List.subperm_of_subset (List.nodup_cons.mpr ⟨fresh, distinct⟩) inside).length_le
  rw [List.length_cons, List.length_range] at bound
  exact bound

/-- A walk along an order visits no node twice, so it ends within the number of nodes. -/
theorem within_size {next : NodeId → List NodeId} {size : Nat} (before : NodeId → NodeId → Prop)
    (irrefl : ∀ id, ¬ before id id) (trans : ∀ {x y z}, before x y → before y z → before x z)
    (small : ∀ {id x}, x ∈ next id → x < size) (along : ∀ {id x}, x ∈ next id → before id x) (lt : id < size) :
    Within next size id := by
  have walk : ∀ (n : Nat) (seen : List NodeId) (id : NodeId), seen.Nodup →
      (∀ a ∈ seen, a < size ∧ before a id) → id < size → size ≤ seen.length + n → Within next n id := by
    intro n
    induction n with
    | zero =>
      intro seen id nodup earlier lt enough
      have fresh : id ∉ seen := fun member => irrefl _ (earlier id member).2
      have room := length_lt_of_fresh nodup (fun a member => (earlier a member).1) lt fresh
      omega
    | succ n ih =>
      intro seen id nodup earlier lt enough x member
      have fresh : id ∉ seen := fun member => irrefl _ (earlier id member).2
      refine ih (id :: seen) x (List.nodup_cons.mpr ⟨fresh, nodup⟩) ?_ (small member) (by simp; omega)
      intro a listed
      rcases List.mem_cons.mp listed with rfl | later
      · exact ⟨lt, along member⟩
      · exact ⟨(earlier a later).1, trans (earlier a later).2 (along member)⟩
  exact walk size [] id List.nodup_nil (by simp) lt (by simp)

theorem above_lt (lt : id < doc.nodes.size) (below : doc.Below x id) : x < doc.nodes.size := by
  rcases Relation.ReflTransGen.cases_head below with same | ⟨c, edge, _⟩
  · exact same ▸ lt
  · exact lt_of_mem_children edge

theorem below_of_mem_descend {x y : NodeId} {depth : Nat} (member : y ∈ doc.descend depth x) : doc.Below x y := by
  induction depth generalizing x with
  | zero => cases member
  | succ depth ih =>
    rcases List.mem_cons.mp member with rfl | inside
    · exact Below.refl doc y
    · obtain ⟨c, child, down⟩ := List.mem_flatMap.mp inside
      exact (Below.child child).trans (ih down)

namespace Forest

theorem fits (forest : doc.Forest) (lt : id < doc.nodes.size) : doc.Fits doc.nodes.size id := by
  obtain ⟨rank, grows⟩ := forest.ranked
  exact within_size (fun a b => rank a < rank b) (fun _ => Nat.lt_irrefl _) Nat.lt_trans forest.childLt grows lt

theorem climbs (forest : doc.Forest) (lt : id < doc.nodes.size) : doc.Climbs doc.nodes.size id := by
  obtain ⟨rank, grows⟩ := forest.ranked
  have up : ∀ {id p}, p ∈ (doc.parent? id).toList → id ∈ doc.children p := fun parent =>
    forest.parentChild (Option.mem_toList.mp parent)
  exact within_size (fun a b => rank b < rank a) (fun _ => Nat.lt_irrefl _) (fun first second => Nat.lt_trans second first)
    (fun parent => lt_of_mem_children (up parent)) (fun parent => grows (up parent)) lt

/-- What holds of a node as soon as it holds of its children holds of every node. -/
theorem induction (forest : doc.Forest) {P : NodeId → Prop} (step : ∀ id, (∀ c ∈ doc.children id, P c) → P id)
    (id : NodeId) : P id := by
  have down : ∀ (n : Nat) (id : NodeId), doc.Fits n id → P id := by
    intro n
    induction n with
    | zero => exact fun _ fits => fits.elim
    | succ n ih => exact fun id fits => step id fun c member => ih c (fits c member)
  by_cases lt : id < doc.nodes.size
  · exact down _ id (forest.fits lt)
  · refine step id fun c member => ?_
    exact absurd (lt_of_mem_children member) lt

/-- A node is no child of its own. -/
theorem child_ne (forest : doc.Forest) (member : c ∈ doc.children id) : c ≠ id := by
  obtain ⟨rank, grows⟩ := forest.ranked
  rintro rfl
  exact Nat.lt_irrefl _ (grows member)

theorem parent_unique (forest : doc.Forest) (first : c ∈ doc.children x) (second : c ∈ doc.children y) : x = y :=
  Option.some.inj ((forest.childParent first).symm.trans (forest.childParent second))

/-- Of two nodes above a third one, one lies below the other. -/
theorem below_or_below (forest : doc.Forest) (first : doc.Below x id) (second : doc.Below y id) :
    doc.Below x y ∨ doc.Below y x := by
  induction first with
  | refl => exact .inr second
  | @tail a b down edge ih =>
    rcases Relation.ReflTransGen.cases_tail second with rfl | ⟨a', down', edge'⟩
    · exact .inl (down.tail edge)
    · have same := forest.parent_unique edge edge'
      subst same
      exact ih down'

/-- Below a node without a parent lies no other node that lies above it. -/
theorem below_root (forest : doc.Forest) (root : doc.parent? id = none) (below : doc.Below x id) : x = id := by
  rcases Relation.ReflTransGen.cases_tail below with same | ⟨a, _, edge⟩
  · exact same.symm
  · rw [forest.childParent edge] at root
    cases root

theorem below_lt (forest : doc.Forest) (lt : x < doc.nodes.size) (below : doc.Below x id) : id < doc.nodes.size := by
  rcases Relation.ReflTransGen.cases_tail below with same | ⟨a, _, edge⟩
  · exact same ▸ lt
  · exact forest.childLt edge

/-- Nodes below each other are the same. -/
theorem below_antisymm (forest : doc.Forest) (down : doc.Below x y) (up : doc.Below y x) : x = y := by
  obtain ⟨rank, grows⟩ := forest.ranked
  have rises : ∀ {a b}, doc.Below a b → a = b ∨ rank a < rank b := by
    intro a b below
    induction below with
    | refl => exact .inl rfl
    | tail _ edge ih =>
      have := grows edge
      rcases ih with rfl | lt
      · exact .inr this
      · exact .inr (Nat.lt_trans lt this)
  rcases rises down with same | lt
  · exact same
  · rcases rises up with same | lt'
    · exact same.symm
    · omega

/-- A parent does not lie below its child. -/
theorem not_below_parent (forest : doc.Forest) (member : c ∈ doc.children p) : ¬ doc.Below c p := fun up =>
  forest.child_ne member (forest.below_antisymm up (Below.child member))

/-- No node lies below two siblings. -/
theorem sibling_eq (forest : doc.Forest) (first : x ∈ doc.children p) (second : y ∈ doc.children p)
    (down : doc.Below x id) (down' : doc.Below y id) : x = y := by
  have lower : ∀ {a b}, a ∈ doc.children p → b ∈ doc.children p → doc.Below a b → a = b := by
    intro a b left right below
    rcases Relation.ReflTransGen.cases_tail below with same | ⟨q, up, edge⟩
    · exact same.symm
    · have same := forest.parent_unique edge right
      exact absurd (same ▸ up) (forest.not_below_parent left)
  rcases forest.below_or_below down down' with below | below
  · exact lower first second below
  · exact (lower second first below).symm

end Forest

/-! ## Forests after a change -/

theorem below_congr (children : ∀ x, doc'.children x = doc.children x) : doc'.Below = doc.Below := by
  unfold Below
  simp only [children]

/-- Being a forest is a matter of parents and children. -/
theorem Forest.congr (forest : doc.Forest) (size : doc'.nodes.size = doc.nodes.size)
    (children : ∀ x, doc'.children x = doc.children x) (parent : ∀ x, doc'.parent? x = doc.parent? x) :
    doc'.Forest where
  childLt member := by
    rw [children] at member
    rw [size]
    exact forest.childLt member
  childParent member := by
    rw [children] at member
    rw [parent]
    exact forest.childParent member
  parentChild link := by
    rw [parent] at link
    rw [children]
    exact forest.parentChild link
  distinct id := by
    rw [children]
    exact forest.distinct id
  ranked := by
    obtain ⟨rank, grows⟩ := forest.ranked
    exact ⟨rank, fun member => grows (by rwa [children] at member)⟩

/-- A node has lost a child, or has got another one that had no parent, or both. -/
structure Rehung (doc doc' : Document) (p : NodeId) (gone new : Option NodeId) : Prop where
  size : doc'.nodes.size = doc.nodes.size
  parent : ∀ x, doc'.parent? x = if some x = new then some p else if some x = gone then none else doc.parent? x
  children : ∀ x, x ≠ p → doc'.children x = doc.children x
  mem : ∀ x, x ∈ doc'.children p ↔ some x = new ∨ (x ∈ doc.children p ∧ some x ≠ gone)
  nodup : (doc'.children p).Nodup

namespace Rehung
variable {gone new : Option NodeId}

/-- A child after the change is the new one below `p`, or was a child before. -/
theorem mem_children (hung : Rehung doc doc' p gone new) (member : c ∈ doc'.children x) :
    (x = p ∧ some c = new) ∨ (c ∈ doc.children x ∧ (x = p → some c ≠ gone)) := by
  by_cases here : x = p
  · subst here
    rcases (hung.mem c).mp member with fresh | ⟨old, stays⟩
    · exact .inl ⟨rfl, fresh⟩
    · exact .inr ⟨old, fun _ => stays⟩
  · rw [hung.children x here] at member
    exact .inr ⟨member, fun same => absurd same here⟩

/-- What lies below a node after the change lay below it before, or came there with the new child. -/
theorem below (hung : Rehung doc doc' p gone new) (under : doc'.Below x y) :
    doc.Below x y ∨ (doc.Below x p ∧ ∃ n, new = some n ∧ doc.Below n y) := by
  induction under with
  | refl => exact .inl (Below.refl doc x)
  | @tail a b _ edge ih =>
    rcases hung.mem_children edge with ⟨rfl, fresh⟩ | ⟨old, _⟩
    · rcases ih with down | ⟨down, _⟩
      · exact .inr ⟨down, b, fresh.symm, Below.refl doc b⟩
      · exact .inr ⟨down, b, fresh.symm, Below.refl doc b⟩
    · rcases ih with down | ⟨down, n, fresh, under⟩
      · exact .inl (down.tail old)
      · exact .inr ⟨down, n, fresh, under.tail old⟩

/-- Hanging up a tree below a node that is not part of it keeps the forest: everything in the tree gets a rank above
    that of its new parent. -/
theorem forest (hung : Rehung doc doc' p gone new) (forest : doc.Forest) (present : p < doc.nodes.size)
    (child : ∀ g, gone = some g → g ∈ doc.children p)
    (free : ∀ n, new = some n → n < doc.nodes.size ∧ doc.parent? n = none ∧ ¬ doc.Below n p) : doc'.Forest := by
  classical
  have unlisted : ∀ {x n}, new = some n → n ∉ doc.children x := by
    intro x n fresh listed
    have := forest.childParent listed
    rw [(free n fresh).2.1] at this
    cases this
  refine ⟨?childLt, ?childParent, ?parentChild, ?distinct, ?ranked⟩
  case childLt =>
    intro id c member
    rw [hung.size]
    rcases hung.mem_children member with ⟨_, fresh⟩ | ⟨old, _⟩
    · exact (free c fresh.symm).1
    · exact forest.childLt old
  case childParent =>
    intro id c member
    rw [hung.parent]
    rcases hung.mem_children member with ⟨rfl, fresh⟩ | ⟨old, stays⟩
    · rw [if_pos fresh]
    · have other : some c ≠ new := fun fresh => unlisted fresh.symm old
      have here : some c ≠ gone := by
        intro lost
        have same := forest.parent_unique old (child c lost.symm)
        exact stays same lost
      rw [if_neg other, if_neg here]
      exact forest.childParent old
  case parentChild =>
    intro id c link
    rw [hung.parent] at link
    by_cases fresh : some c = new
    · rw [if_pos fresh] at link
      cases link
      exact (hung.mem c).mpr (.inl fresh)
    · rw [if_neg fresh] at link
      by_cases lost : some c = gone
      · rw [if_pos lost] at link
        cases link
      · rw [if_neg lost] at link
        have old := forest.parentChild link
        by_cases here : id = p
        · subst here
          exact (hung.mem c).mpr (.inr ⟨old, lost⟩)
        · rw [hung.children id here]
          exact old
  case distinct =>
    intro id
    by_cases here : id = p
    · rw [here]
      exact hung.nodup
    · rw [hung.children id here]
      exact forest.distinct id
  case ranked =>
    obtain ⟨rank, grows⟩ := forest.ranked
    refine ⟨fun x => if ∃ n, new = some n ∧ doc.Below n x then rank p + 1 + rank x else rank x, ?_⟩
    intro id c member
    rcases hung.mem_children member with ⟨rfl, fresh⟩ | ⟨old, _⟩
    · have outside : ¬ ∃ n, new = some n ∧ doc.Below n id := fun ⟨n, same, under⟩ => (free n same).2.2 under
      have inside : ∃ n, new = some n ∧ doc.Below n c := ⟨c, fresh.symm, Below.refl doc c⟩
      simp only [if_neg outside, if_pos inside]
      omega
    · have up := grows old
      by_cases inside : ∃ n, new = some n ∧ doc.Below n id
      · obtain ⟨n, same, under⟩ := inside
        simp only [if_pos (⟨n, same, under⟩ : ∃ n, new = some n ∧ doc.Below n id),
          if_pos (⟨n, same, under.tail old⟩ : ∃ n, new = some n ∧ doc.Below n c)]
        omega
      · simp only [if_neg inside]
        split <;> omega

end Rehung

/-- New nodes have been added whose children are newer than themselves; the others are as they were. -/
structure Grown (doc doc' : Document) : Prop where
  size : doc.nodes.size ≤ doc'.nodes.size
  parent : ∀ x < doc.nodes.size, doc'.parent? x = doc.parent? x
  children : ∀ x < doc.nodes.size, doc'.children x = doc.children x
  childGt : ∀ x, doc.nodes.size ≤ x → ∀ c ∈ doc'.children x, x < c ∧ c < doc'.nodes.size ∧ doc'.parent? c = some x
  parentChild : ∀ x, doc.nodes.size ≤ x → ∀ p, doc'.parent? x = some p → doc.nodes.size ≤ p ∧ x ∈ doc'.children p
  nodup : ∀ x, doc.nodes.size ≤ x → (doc'.children x).Nodup

namespace Grown

theorem forest (grown : Grown doc doc') (forest : doc.Forest) : doc'.Forest := by
  refine ⟨?childLt, ?childParent, ?parentChild, ?distinct, ?ranked⟩
  case childLt =>
    intro id c member
    by_cases old : id < doc.nodes.size
    · rw [grown.children id old] at member
      exact Nat.lt_of_lt_of_le (forest.childLt member) grown.size
    · exact (grown.childGt id (Nat.le_of_not_lt old) c member).2.1
  case childParent =>
    intro id c member
    by_cases old : id < doc.nodes.size
    · rw [grown.children id old] at member
      rw [grown.parent c (forest.childLt member)]
      exact forest.childParent member
    · exact (grown.childGt id (Nat.le_of_not_lt old) c member).2.2
  case parentChild =>
    intro id c link
    by_cases old : c < doc.nodes.size
    · rw [grown.parent c old] at link
      have member := forest.parentChild link
      rw [grown.children id (lt_of_mem_children member)]
      exact member
    · exact (grown.parentChild c (Nat.le_of_not_lt old) id link).2
  case distinct =>
    intro id
    by_cases old : id < doc.nodes.size
    · rw [grown.children id old]
      exact forest.distinct id
    · exact grown.nodup id (Nat.le_of_not_lt old)
  case ranked =>
    obtain ⟨rank, grows⟩ := forest.ranked
    refine ⟨fun x => if x < doc.nodes.size then rank x else x, ?_⟩
    intro id c member
    by_cases old : id < doc.nodes.size
    · rw [grown.children id old] at member
      simp only [if_pos old, if_pos (forest.childLt member)]
      exact grows member
    · have newer := (grown.childGt id (Nat.le_of_not_lt old) c member).1
      have beyond : ¬ c < doc.nodes.size := fun lt => old (Nat.lt_trans newer lt)
      simp only [if_neg old, if_neg beyond]
      exact newer

/-- Below a new node lie only newer ones. -/
theorem below_new (grown : Grown doc doc') (new : doc.nodes.size ≤ x) (under : doc'.Below x y) : x ≤ y := by
  induction under with
  | refl => exact Nat.le_refl x
  | @tail a b _ edge ih =>
    exact Nat.le_trans ih (Nat.le_of_lt (grown.childGt a (Nat.le_trans new ih) b edge).1)

end Grown

end Document

end StoreModels
