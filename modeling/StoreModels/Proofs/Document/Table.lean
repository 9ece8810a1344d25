import Mathlib.Data.List.Basic
import StoreModels.Document.Edit

/-!
The table of nodes of a document: what an insertion and an update do to each node, and what no edit ever changes. An
edit may give a node another parent, other children, another field, another mark and a node that it replaces; its kind,
its origin and the children it was parsed with stay, and so do the texts and the style of the document.
-/
namespace StoreModels
open Syntax (Span Role)

namespace Document
variable {doc doc' : Document} {id x : NodeId}

theorem node_eq (doc : Document) (id : NodeId) : doc.node id = doc.nodes[id]?.getD .missing := by
  simp [node]

/-- A number that no node has. -/
theorem node_beyond (beyond : doc.nodes.size ≤ id) : doc.node id = .missing := by
  rw [node_eq, Array.getElem?_eq_none beyond]
  rfl

theorem children_beyond (beyond : doc.nodes.size ≤ id) : doc.children id = [] := by
  rw [children, node_beyond beyond]
  rfl

theorem parent_beyond (beyond : doc.nodes.size ≤ id) : doc.parent? id = none := by
  rw [parent?, node_beyond beyond]
  rfl

theorem lt_of_role {role : Role} (is : doc.role id = role) (known : role ≠ .other) : id < doc.nodes.size := by
  by_contra beyond
  rw [Document.role, node_beyond (Nat.le_of_not_lt beyond)] at is
  exact known is.symm

/-- A node with a parent or with children is in the table. -/
theorem lt_of_mem_children {c : NodeId} (member : c ∈ doc.children id) : id < doc.nodes.size := by
  by_contra beyond
  rw [children_beyond (Nat.le_of_not_lt beyond)] at member
  cases member

theorem lt_of_parent {p : NodeId} (parent : doc.parent? id = some p) : id < doc.nodes.size := by
  by_contra beyond
  rw [parent_beyond (Nat.le_of_not_lt beyond)] at parent
  cases parent

/-! ## Updates -/

@[simp] theorem size_update (doc : Document) (id : NodeId) (change : Node → Node) :
    (doc.update id change).nodes.size = doc.nodes.size := by
  simp [update]

theorem node_update_of_ne (change : Node → Node) (other : x ≠ id) : (doc.update id change).node x = doc.node x := by
  simp [update, node_eq, Array.getElem?_modify, Ne.symm other]

theorem node_update_self (change : Node → Node) (present : id < doc.nodes.size) :
    (doc.update id change).node id = change (doc.node id) := by
  simp [update, node_eq, Array.getElem?_modify, Array.getElem?_eq_getElem present]

/-- An update changes nothing that its change does not. -/
theorem node_update_field {α : Type} (view : Node → α) (change : Node → Node)
    (same : ∀ node, view (change node) = view node) : view ((doc.update id change).node x) = view (doc.node x) := by
  by_cases here : x = id
  · subst here
    by_cases present : x < doc.nodes.size
    · rw [node_update_self change present, same]
    · rw [node_beyond (by simpa using present), node_beyond (by simpa using present)]
  · rw [node_update_of_ne change here]

/-! ## Insertions -/

@[simp] theorem size_insert (doc : Document) (node : Node) : (doc.insert node).1.nodes.size = doc.nodes.size + 1 := by
  simp [insert]

@[simp] theorem insert_snd (doc : Document) (node : Node) : (doc.insert node).2 = doc.nodes.size := rfl

theorem node_insert_self (doc : Document) (node : Node) : (doc.insert node).1.node doc.nodes.size = node := by
  simp [insert, node_eq]

theorem node_insert_of_ne (node : Node) (other : x ≠ doc.nodes.size) : (doc.insert node).1.node x = doc.node x := by
  rcases Nat.lt_or_gt_of_ne other with before | behind
  · simp [insert, node_eq, Array.getElem?_push_lt, before]
  · rw [node_beyond (by simp; omega), node_beyond (by omega)]

/-! ## What stays -/

/-- A document after some edits of another one: it has more texts and nodes, and the nodes of the first are still there
    as far as edits leave them alone. -/
structure Extends (doc doc' : Document) : Prop where
  size : doc.nodes.size ≤ doc'.nodes.size
  buffers : doc.buffers <+: doc'.buffers
  dialect : doc'.dialect = doc.dialect
  root : doc'.root = doc.root
  shownIndent : doc'.shownIndent = doc.shownIndent
  fallbackIndent : doc'.fallbackIndent = doc.fallbackIndent
  newline : doc'.newline = doc.newline
  kind : ∀ id < doc.nodes.size, (doc'.node id).kind = (doc.node id).kind
  origin : ∀ id < doc.nodes.size, (doc'.node id).origin = (doc.node id).origin
  named : ∀ id < doc.nodes.size, (doc'.node id).named = (doc.node id).named
  firstChildren : ∀ id < doc.nodes.size, (doc'.node id).firstChildren = (doc.node id).firstChildren

namespace Extends

theorem refl (doc : Document) : Extends doc doc where
  size := Nat.le_refl _
  buffers := List.prefix_refl _
  dialect := rfl
  root := rfl
  shownIndent := rfl
  fallbackIndent := rfl
  newline := rfl
  kind _ _ := rfl
  origin _ _ := rfl
  named _ _ := rfl
  firstChildren _ _ := rfl

theorem trans {doc'' : Document} (first : Extends doc doc') (second : Extends doc' doc'') : Extends doc doc'' where
  size := Nat.le_trans first.size second.size
  buffers := first.buffers.trans second.buffers
  dialect := second.dialect.trans first.dialect
  root := second.root.trans first.root
  shownIndent := second.shownIndent.trans first.shownIndent
  fallbackIndent := second.fallbackIndent.trans first.fallbackIndent
  newline := second.newline.trans first.newline
  kind id lt := (second.kind id (Nat.lt_of_lt_of_le lt first.size)).trans (first.kind id lt)
  origin id lt := (second.origin id (Nat.lt_of_lt_of_le lt first.size)).trans (first.origin id lt)
  named id lt := (second.named id (Nat.lt_of_lt_of_le lt first.size)).trans (first.named id lt)
  firstChildren id lt :=
    (second.firstChildren id (Nat.lt_of_lt_of_le lt first.size)).trans (first.firstChildren id lt)

theorem role (ext : Extends doc doc') (lt : id < doc.nodes.size) : doc'.role id = doc.role id := by
  simp only [Document.role, Node.role, ext.kind id lt]

theorem buffer? (ext : Extends doc doc') (lt : id < doc.nodes.size) :
    (doc'.node id).buffer? = (doc.node id).buffer? := by
  simp only [Node.buffer?, ext.origin id lt]

theorem span? (ext : Extends doc doc') (lt : id < doc.nodes.size) : (doc'.node id).span? = (doc.node id).span? := by
  simp only [Node.span?, ext.origin id lt]

/-- A text that the first document has is the same in the second. -/
theorem buffer (ext : Extends doc doc') {b : BufferId} (lt : b < doc.buffers.length) :
    doc'.buffer b = doc.buffer b := by
  obtain ⟨more, same⟩ := ext.buffers
  simp only [Document.buffer, ← same, List.getD_eq_getElem?_getD, List.getElem?_append_left lt]

theorem indentUnit (ext : Extends doc doc') : doc'.indentUnit = doc.indentUnit := by
  simp only [Document.indentUnit, ext.shownIndent, ext.fallbackIndent]

end Extends

theorem extends_withBuffer (doc : Document) (text : List Char) :
    Extends doc { doc with buffers := doc.buffers ++ [text] } where
  size := Nat.le_refl _
  buffers := List.prefix_append _ _
  dialect := rfl
  root := rfl
  shownIndent := rfl
  fallbackIndent := rfl
  newline := rfl
  kind _ _ := rfl
  origin _ _ := rfl
  named _ _ := rfl
  firstChildren _ _ := rfl

end Document

end StoreModels
