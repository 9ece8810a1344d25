import StoreModels.Model.Key
import StoreModels.Proofs.Document.Forest
import StoreModels.Proofs.Checked.Text

/-!
Walks through the table of a document, where asking for a node or a text that it does not have fails, and so does a walk
down that has not ended at the depth it is given. In a forest no walk from a node of the table fails.
-/
namespace StoreModels.Checked
open Syntax (Role)

variable {α β : Type} {doc : Document} {id : NodeId} {xs : List α}

/-! ## Lists -/

/-- The elements that pass a test that may fail. -/
def keep (test : α → Option Bool) : List α → Option (List α)
  | [] => some []
  | x :: rest => do
    let passes ← test x
    let more ← keep test rest
    return if passes then x :: more else more

theorem keep_some {test : α → Option Bool} {total : α → Bool} (each : ∀ x ∈ xs, test x = some (total x)) :
    keep test xs = some (xs.filter total) := by
  induction xs with
  | nil => rfl
  | cons x rest ih =>
    obtain ⟨here, later⟩ := List.forall_mem_cons.mp each
    rw [keep, here, ih later, List.filter_cons]
    rfl

/-- The first element that passes a test that may fail; those behind it are not tested. -/
def search (test : α → Option Bool) : List α → Option (Option α)
  | [] => some none
  | x :: rest => do if ← test x then return some x else search test rest

theorem search_some {test : α → Option Bool} {total : α → Bool} (each : ∀ x ∈ xs, test x = some (total x)) :
    search test xs = some (xs.find? total) := by
  induction xs with
  | nil => rfl
  | cons x rest ih =>
    obtain ⟨here, later⟩ := List.forall_mem_cons.mp each
    rw [search, here, ih later, List.find?_cons]
    cases total x <;> rfl

theorem mapM_some {step : α → Option β} {total : α → β} (each : ∀ x ∈ xs, step x = some (total x)) :
    xs.mapM step = some (xs.map total) := by
  induction xs with
  | nil => rfl
  | cons x rest ih =>
    obtain ⟨here, later⟩ := List.forall_mem_cons.mp each
    rw [List.mapM_cons, here, ih later]
    rfl

/-! ## Nodes -/

/-- The node with a number. -/
def node (doc : Document) (id : NodeId) : Option Node := doc.nodes[id]?

/-- The text with a number. -/
def buffer (doc : Document) (id : BufferId) : Option (List Char) := doc.buffers[id]?

def role (doc : Document) (id : NodeId) : Option Role := (node doc id).map Node.role

def children (doc : Document) (id : NodeId) : Option (List NodeId) := (node doc id).map Node.children

theorem node_some (lt : id < doc.nodes.size) : node doc id = some (doc.node id) := by
  rw [node, Document.node, Array.getElem?_eq_getElem lt, Array.getD_eq_getD_getElem?, Array.getElem?_eq_getElem lt,
    Option.getD_some]

theorem buffer_some {id : BufferId} (lt : id < doc.buffers.length) : buffer doc id = some (doc.buffer id) := by
  rw [buffer, Document.buffer, List.getElem?_eq_getElem lt, List.getD_eq_getElem?_getD, List.getElem?_eq_getElem lt,
    Option.getD_some]

theorem role_some (lt : id < doc.nodes.size) : role doc id = some (doc.role id) := by
  rw [role, node_some lt]
  rfl

theorem children_some (lt : id < doc.nodes.size) : children doc id = some (doc.children id) := by
  rw [children, node_some lt]
  rfl

/-- The children that the grammar names, comments apart. -/
def namedChildren (doc : Document) (id : NodeId) : Option (List NodeId) := do
  keep (fun c => do
    let node ← node doc c
    return node.named && node.role != .comment) (← children doc id)

/-- The entries of an object literal. -/
def entries (doc : Document) (object : NodeId) : Option (List NodeId) := do
  keep (fun c => do return (← role doc c).isEntry) (← children doc object)

/-- The first child that fills a field. -/
def childByField (doc : Document) (id : NodeId) (field : String) : Option (Option NodeId) := do
  search (fun c => do return (← node doc c).field == some field) (← children doc id)

/-- The nodes below and including one, each before its children. -/
def descend (doc : Document) : Nat → NodeId → Option (List NodeId)
  | 0, _ => none
  | depth + 1, id => do
    let below ← (← children doc id).mapM (descend doc depth)
    return id :: below.flatten

def descendants (doc : Document) (id : NodeId) : Option (List NodeId) := descend doc doc.nodes.size id

section Walks
variable (forest : doc.Forest) (lt : id < doc.nodes.size)
include forest lt

theorem namedChildren_some : namedChildren doc id = some (doc.namedChildren id) := by
  rw [namedChildren, children_some lt]
  refine keep_some fun c member => ?_
  rw [node_some (forest.childLt member)]
  rfl

theorem entries_some : entries doc id = some (doc.entries id) := by
  rw [entries, children_some lt]
  refine keep_some fun c member => ?_
  rw [role_some (forest.childLt member)]
  rfl

theorem childByField_some (field : String) : childByField doc id field = some (doc.childByField? id field) := by
  rw [childByField, children_some lt]
  refine search_some fun c member => ?_
  rw [node_some (forest.childLt member)]
  rfl

theorem descendants_some : descendants doc id = some (doc.descendants id) := by
  have down : ∀ (depth : Nat) (id : NodeId), id < doc.nodes.size → doc.Fits depth id →
      descend doc depth id = some (doc.descend depth id) := by
    intro depth
    induction depth with
    | zero => exact fun _ _ fits => fits.elim
    | succ depth ih =>
      intro id lt fits
      have below : (doc.children id).mapM (descend doc depth) = some ((doc.children id).map (doc.descend depth)) :=
        mapM_some fun c member => ih c (forest.childLt member) (fits c member)
      rw [descend, children_some lt]
      simp only [Option.bind_eq_bind, Option.bind_some, below]
      rw [Document.descend, List.flatMap_def]
      rfl
  exact down _ id lt (forest.fits lt)

end Walks

theorem childByField_lt {field : String} {c : NodeId} (forest : doc.Forest) (found : doc.childByField? id field = some c) :
    c < doc.nodes.size :=
  forest.childLt (List.mem_of_find?_eq_some found)

end StoreModels.Checked
