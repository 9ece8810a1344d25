import StoreModels.Document.Basic

/-!
Edits of a document's tree. A node that is replaced or removed keeps its number and everything below it; it only loses
its parent. All nodes above a change are marked, so that the printer looks into them.
-/
namespace StoreModels
namespace Document

/-- A new leaf with a text of its own. -/
def writeLeaf (doc : Document) (kind : String) (text : List Char) : Document × NodeId :=
  doc.insert (.written kind (some text))

/-- A new node above other nodes, each with the field that it fills. -/
def writeNode (doc : Document) (kind : String) (children : List (Option String × NodeId)) : Document × NodeId :=
  let (doc, id) := doc.insert (.written kind none)
  let doc := children.foldl
    (fun doc (field, child) => doc.update child fun node => { node with parent := some id, field }) doc
  (doc.update id fun node => { node with children := node.children ++ children.map Prod.snd }, id)

/-- Marks a node and those above it, up to a height. -/
def markUp (doc : Document) : Nat → NodeId → Document
  | 0, _ => doc
  | height + 1, id =>
    let doc := doc.update id fun node => { node with dirty := true }
    match doc.parent? id with
    | some parent => doc.markUp height parent
    | none => doc

/-- Marks a node and all nodes above it as changed. -/
def mark (doc : Document) (id : NodeId) : Document := doc.markUp doc.nodes.size id

/-- Puts a node in the place of another one. -/
def replace (doc : Document) (old new : NodeId) : Except Mismatch Document :=
  match doc.parent? old with
  | none => .error .replacesDetached
  | some parent =>
    match (doc.children parent).findIdx? (· == old) with
    | none => .error .notAttached
    | some place =>
      let field := (doc.node old).field
      let doc := doc.update old fun node => { node with parent := none }
      let doc := doc.update new fun node => { node with parent := some parent, field, replaces := some old }
      let doc := doc.update parent fun node => { node with children := node.children.set place new }
      .ok (doc.mark parent)

/-- Fails unless a node is an object literal. -/
def requireObject (doc : Document) (id : NodeId) : Except Mismatch Unit :=
  if doc.role id = .object then .ok () else .error (.noObject (doc.node id).kind)

/-- Where the next entry of an object literal goes: before the closing brace if there is one. -/
def entryEnd (doc : Document) (object : NodeId) : Nat :=
  let children := doc.children object
  match children.getLast? with
  | some last => if (doc.node last).kind = "\x7d" then children.length - 1 else children.length
  | none => 0

/-- Adds an entry at the end of an object literal. -/
def append (doc : Document) (object entry : NodeId) : Except Mismatch Document := do
  doc.requireObject object
  let place := doc.entryEnd object
  let doc := doc.update entry fun node => { node with parent := some object }
  let doc := doc.update object fun node => { node with children := node.children.insertIdx place entry }
  return doc.mark object

/-- Takes an entry out of its object literal. -/
def remove (doc : Document) (entry : NodeId) : Except Mismatch Document :=
  match doc.parent? entry with
  | none => .error .removesDetached
  | some object => do
    doc.requireObject object
    let doc := doc.update object fun node => { node with children := node.children.filter (· != entry) }
    let doc := doc.update entry fun node => { node with parent := none }
    return doc.mark object

/-- Copies of nodes one after the other, as children of a node. -/
def copyAll (copy : NodeId → Document → Document × NodeId) (parent : NodeId) :
    List NodeId → Document → Document × List NodeId
  | [], doc => (doc, [])
  | id :: rest, doc =>
    let (doc, new) := copy id doc
    let doc := doc.update new fun node => { node with parent := some parent }
    let (doc, news) := copyAll copy parent rest doc
    (doc, new :: news)

/-- A copy of a node and all below it, down to a depth. Children that were replaced since parsing are not copied: only
    their places in the text are still needed. -/
def copyDown : Nat → NodeId → Document → Document × NodeId
  | 0, id, doc => (doc, id)
  | depth + 1, id, doc =>
    let node := doc.node id
    let (doc, copy) := doc.insert { node with parent := none, children := [], firstChildren := [] }
    let (doc, children) := copyAll (copyDown depth) copy node.children doc
    let renamed := node.children.zip children
    let firstChildren := node.firstChildren.map fun o => (renamed.lookup o).getD o
    (doc.update copy fun node => { node with children, firstChildren }, copy)

/-- A copy of a node and all below it that stands for itself. -/
def duplicate (doc : Document) (id : NodeId) : Document × NodeId :=
  let (doc, copy) := copyDown (doc.nodes.size + 1) id doc
  (doc.update copy fun node => { node with replaces := none }, copy)

end Document

end StoreModels
