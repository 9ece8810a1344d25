import StoreModels.Model.Match
import StoreModels.Record.Evaluate

/-!
Records of models, detached from any document: the namespace, the value of the state, and the named entries with their
texts and the actions they dispatch. These are calls of some functions by their bare names whose first argument is a
string, or an object literal with a string as its type.
-/
namespace StoreModels
namespace Document

/-- The string literal that tells the type of the action an argument stands for. -/
def actionLiteral? (doc : Document) (argument : NodeId) : Option NodeId :=
  match doc.role argument with
  | .stringLiteral => some argument
  | .object =>
    ((doc.entriesNamed argument "type".toList).getLast?.bind doc.pairValue?).filter
      fun value => doc.role value = .stringLiteral
  | _ => none

/-- The type of the action that a node dispatches, if it is a call that does. -/
def actionType? (doc : Document) (callees : List (List Char)) (call : NodeId) : Option (List Char) := do
  guard (doc.role call = .callExpr)
  let callee ← doc.childByField? call "function"
  guard (doc.role callee = .identifier && callees.contains (doc.text callee))
  let arguments ← doc.childByField? call "arguments"
  let first ← (doc.namedChildren arguments).head?
  let literal ← doc.actionLiteral? first
  return Literal.unquoted (doc.text literal)

/-- The types of the actions that the code of a node dispatches, in the order of the text. -/
def dispatches (doc : Document) (callees : List (List Char)) (id : NodeId) : List (List Char) :=
  (doc.descendants id).filterMap (doc.actionType? callees)

end Document

/-! ## Records -/

/-- An entry of a container: its name, the text of its value (of a method the whole method), and the types of the
    actions it dispatches. -/
structure EntryRecord where
  name : List Char
  source : List Char
  dispatches : List (List Char)
  deriving DecidableEq, Repr

/-- The record of a model. -/
structure ModelRecord where
  space : List Char
  state : Option Value
  reducers : List EntryRecord
  effects : List EntryRecord
  subscriptions : List EntryRecord

namespace ModelRecord

/-- The record of a model of which only the namespace is known. -/
def ofNamespace (space : List Char) : ModelRecord := ⟨space, none, [], [], []⟩

/-- The entries of a container. -/
def entries (record : ModelRecord) : Container → List EntryRecord
  | .reducers => record.reducers
  | .effects => record.effects
  | .subscriptions => record.subscriptions

/-- The record with other entries in a container. -/
def withEntries (record : ModelRecord) (entries : List EntryRecord) : Container → ModelRecord
  | .reducers => { record with reducers := entries }
  | .effects => { record with effects := entries }
  | .subscriptions => { record with subscriptions := entries }

end ModelRecord

namespace Document

/-- The records of entries of a container. -/
def entryRecords (doc : Document) (callees : List (List Char)) (container : Container) :
    List NodeId → Except Failure (List EntryRecord)
  | [] => .ok []
  | entry :: rest =>
    let key := (doc.entryKey? entry).getD .computed
    match key.name? with
    | none => .error (.mismatch (.dynamicKey container.key key.describe))
    | some name => do
      let body := doc.entryBody entry
      let dispatches := if container.tracksDispatches then doc.dispatches callees body else []
      return { name, source := doc.printNode body, dispatches } :: (← doc.entryRecords callees container rest)

/-- The records of all entries of a container, which has to be an object literal. -/
def containerRecords (doc : Document) (callees : List (List Char)) (container : Container) (value : NodeId) :
    Except Failure (List EntryRecord) :=
  if doc.role value = .object then doc.entryRecords callees container (doc.entries value)
  else .error (.mismatch (.containerKind container.key (doc.node value).kind))

/-- A record with what some entries of its model say. A model has no other properties than the known ones. -/
def extractEntries (doc : Document) (callees : List (List Char)) : ModelRecord → List NodeId →
    Except Failure ModelRecord
  | record, [] => .ok record
  | record, entry :: rest =>
    match doc.entryProperty? entry with
    | none =>
      .error (.unrecognizedProperty record.space ((doc.entryKey? entry).getD .computed).describe)
    | some .nameSpace => doc.extractEntries callees record rest
    | some .state => do
      let value ← doc.evaluate (doc.entryBody entry)
      doc.extractEntries callees { record with state := some value } rest
    | some (.container container) => do
      let entries ← doc.containerRecords callees container (doc.entryBody entry)
      doc.extractEntries callees (record.withEntries entries container) rest

/-- The record of a model. -/
def extractModel (doc : Document) (callees : List (List Char)) (model : Model) : Except Failure ModelRecord :=
  doc.extractEntries callees (.ofNamespace model.space) (doc.entries model.object)

/-- The records of some models. -/
def extractAll (doc : Document) (callees : List (List Char)) : List Model → Except Failure (List ModelRecord)
  | [] => .ok []
  | model :: rest => do
    let record ← doc.extractModel callees model
    return record :: (← doc.extractAll callees rest)

/-- The records of the models of a document in the order of the text, all or those of one namespace. -/
def extract (doc : Document) (callees : List (List Char)) (filter : Option (List Char)) :
    Except Failure (List ModelRecord) := do
  doc.extractAll callees (← doc.models filter)

end Document

end StoreModels
