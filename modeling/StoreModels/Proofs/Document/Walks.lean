import StoreModels.Document.Layout
import StoreModels.Proofs.Document.Forest

/-!
Walks from an entry back to the node of a slot. A walk arrives at a slot or at a node that took no place, or it never ends.
One that arrives passes no node twice, so it does within as many steps as there are nodes, and printing counts them.
-/
namespace StoreModels

namespace Document
variable {doc : Document} {slots : List Slot} {id old : NodeId} {position : Option Nat} {n : Nat}

/-! ## Where walks arrive -/

/-- Where the walk from a node arrives: at a slot, or at a node without one that took no place. -/
inductive Arrives (doc : Document) (slots : List Slot) : NodeId → Option Nat → Prop
  | slot {id : NodeId} {q : Nat} (found : slots.findIdx? (·.id == id) = some q) : Arrives doc slots id (some q)
  | first {id : NodeId} (absent : slots.findIdx? (·.id == id) = none) (none : (doc.node id).replaces = none) :
    Arrives doc slots id Option.none
  | back {id old : NodeId} {position : Option Nat} (absent : slots.findIdx? (·.id == id) = none)
    (took : (doc.node id).replaces = some old) (rest : Arrives doc slots old position) : Arrives doc slots id position

/-- One step of a walk: from a node without a slot to the node whose place it took. -/
def StepsBack (doc : Document) (slots : List Slot) (id old : NodeId) : Prop :=
  slots.findIdx? (·.id == id) = none ∧ (doc.node id).replaces = some old

/-- No walk that arrives comes by a node twice. -/
theorem Arrives.no_circle (arrives : doc.Arrives slots id position) :
    ¬ Relation.TransGen (doc.StepsBack slots) id id := by
  have leaves : ∀ {x}, Relation.TransGen (doc.StepsBack slots) x x →
      ∃ old, doc.StepsBack slots x old ∧ Relation.ReflTransGen (doc.StepsBack slots) old x := fun circle =>
    (Relation.TransGen.head'_iff.mp circle)
  induction arrives with
  | slot found =>
    intro circle
    obtain ⟨_, ⟨absent, _⟩, _⟩ := leaves circle
    rw [found] at absent
    cases absent
  | first _ none =>
    intro circle
    obtain ⟨_, ⟨_, took⟩, _⟩ := leaves circle
    rw [none] at took
    cases took
  | back absent took _ ih =>
    intro circle
    obtain ⟨next, step, rest⟩ := leaves circle
    have same := Option.some.inj (took.symm.trans step.2)
    subst same
    exact ih (Relation.TransGen.tail' rest step)

/-! ## Counted steps -/

theorem slotWalk_slot {q : Nat} (found : slots.findIdx? (·.id == id) = some q) :
    doc.slotWalk slots (n + 1) id = some (some q) := by
  rw [slotWalk, found]

theorem slotWalk_first (absent : slots.findIdx? (·.id == id) = none) (none : (doc.node id).replaces = none) :
    doc.slotWalk slots (n + 1) id = some Option.none := by
  rw [slotWalk, absent, none]

theorem slotWalk_back (absent : slots.findIdx? (·.id == id) = none) (took : (doc.node id).replaces = some old) :
    doc.slotWalk slots (n + 1) id = doc.slotWalk slots n old := by
  rw [slotWalk, absent, took]

theorem Arrives.of_walk (walk : doc.slotWalk slots n id = some position) : doc.Arrives slots id position := by
  induction n generalizing id with
  | zero => cases walk
  | succ n ih =>
    cases found : slots.findIdx? (·.id == id) with
    | some q =>
      rw [slotWalk_slot found] at walk
      exact Option.some.inj walk ▸ .slot found
    | none =>
      cases took : (doc.node id).replaces with
      | none =>
        rw [slotWalk_first found took] at walk
        exact Option.some.inj walk ▸ .first found took
      | some old =>
        rw [slotWalk_back found took] at walk
        exact .back found took (ih walk)

/-- Where some nodes have been passed, a walk arrives within as many steps as there are other ones. -/
theorem Arrives.walk_rest (arrives : doc.Arrives slots id position) (passed : List NodeId) (distinct : passed.Nodup)
    (before : ∀ a ∈ passed, a < doc.nodes.size ∧ Relation.TransGen (doc.StepsBack slots) a id)
    (enough : doc.nodes.size ≤ passed.length + n) : doc.slotWalk slots (n + 1) id = some position := by
  induction arrives generalizing n passed with
  | slot found => exact slotWalk_slot found
  | first absent none => exact slotWalk_first absent none
  | @back id old position absent took rest ih =>
    have present : id < doc.nodes.size := by
      by_contra beyond
      rw [node_beyond (Nat.le_of_not_lt beyond)] at took
      cases took
    have fresh : id ∉ passed := fun member => (Arrives.back absent took rest).no_circle (before id member).2
    have room := length_lt_of_fresh distinct (fun a member => (before a member).1) present fresh
    obtain ⟨n, rfl⟩ := Nat.exists_eq_add_of_le' (show 1 ≤ n by omega)
    rw [slotWalk_back absent took]
    refine ih (id :: passed) (List.nodup_cons.mpr ⟨fresh, distinct⟩) ?_ (by simp; omega)
    intro a member
    rcases List.mem_cons.mp member with rfl | later
    · exact ⟨present, .single ⟨absent, took⟩⟩
    · exact ⟨(before a later).1, (before a later).2.tail ⟨absent, took⟩⟩

/-- A walk that arrives does so within as many steps as there are nodes, and one more. -/
theorem slotWalk_size_iff : doc.slotWalk slots (doc.nodes.size + 1) id = some position ↔ doc.Arrives slots id position :=
  ⟨.of_walk, fun arrives => arrives.walk_rest [] List.nodup_nil (by simp) (by simp)⟩

/-- Whether the walk from a node ends. -/
def WalkEnds (doc : Document) (slots : List Slot) (id : NodeId) : Prop :=
  ∃ steps position, doc.slotWalk slots steps id = some position

theorem walkEnds_iff : doc.WalkEnds slots id ↔ ∃ position, doc.Arrives slots id position :=
  ⟨fun ⟨_, position, walk⟩ => ⟨position, .of_walk walk⟩, fun ⟨position, arrives⟩ =>
    ⟨_, position, slotWalk_size_iff.mpr arrives⟩⟩

/-! ## Positions -/

theorem slotPosition?_eq (n : Nat) (id : NodeId) : doc.slotPosition? slots n id = (doc.slotWalk slots n id).join := by
  induction n generalizing id with
  | zero => rfl
  | succ n ih =>
    rw [slotPosition?, slotWalk]
    cases slots.findIdx? (·.id == id) with
    | some q => rfl
    | none =>
      cases (doc.node id).replaces with
      | none => rfl
      | some old => exact ih old

/-- No position comes of a walk without an end. -/
theorem slotOf_eq (doc : Document) (slots : List Slot) (entry : NodeId) :
    doc.slotOf slots entry = doc.slotPosition? slots (doc.nodes.size + 1) entry := by
  rw [slotPosition?_eq, slotOf]
  cases doc.slotWalk slots (doc.nodes.size + 1) entry with
  | some position => rfl
  | none => exact (doc.walkOn entry).property

end Document

end StoreModels
