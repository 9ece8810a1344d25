import StoreModels.Model.Match
import StoreModels.Document.Edit

/-!
Edits of models. Every edit goes through the models of a set one after the other; a failure stops it and keeps what has
been done so far. A snippet is parsed once: its tree goes to the first place that needs it, copies go to all others.
-/
namespace StoreModels
open Syntax (Reader)

/-- An edit of a document that may fail and keeps its changes even then. -/
abbrev Edit := ExceptT Failure (StateM Document)

namespace Edit

/-- A part of a document as it is now. -/
def look (view : Document → α) : Edit α := do pure (view (← get))

/-- A step that also yields a value. -/
def make (step : Document → Document × α) : Edit α := do
  let (doc, a) := step (← get)
  set doc
  pure a

/-- A change that may not fit. -/
def change (step : Document → Except Mismatch Document) : Edit Unit := do
  match step (← get) with
  | .ok doc => set doc
  | .error m => throw (.mismatch m)

/-- A result that may be missing. -/
def orFail (failure : Failure) : Option α → Edit α
  | some a => pure a
  | none => throw failure

end Edit

/-- The tree of a snippet and whether it has found a place. -/
structure Snippet where
  tree : NodeId
  used : Bool

namespace Snippet

/-- The tree of a snippet added to a document. -/
def parse [Reader] (source : List Char) : Edit Snippet := do
  match (← get).parseExpression source with
  | .ok (doc, tree) => set doc; pure ⟨tree, false⟩
  | .error e => throw (.ofRead e)

/-- The tree for the next place. -/
def next (snippet : Snippet) : Edit (NodeId × Snippet) := do
  if snippet.used then
    let copy ← Edit.make (·.duplicate snippet.tree)
    pure (copy, snippet)
  else pure (snippet.tree, { snippet with used := true })

end Snippet

namespace Model

/-- The namespace as a property name. -/
def namespaceName : List Char := Property.name .nameSpace |>.toList

/-- The state as a property name. -/
def stateName : List Char := Property.name .state |>.toList

/-- The quote character that a model's namespace is written with. -/
def quote (doc : Document) (model : Model) : Char :=
  match (doc.entryNamed? model.object namespaceName).bind doc.pairValue? with
  | some value => Literal.quoteOf (doc.text value)
  | none => '\''

/-- The object literal of a container; none when the model does not have the property. -/
def containerObject? (doc : Document) (model : Model) (container : Container) : Except Failure (Option NodeId) :=
  match doc.entryNamed? model.object container.key.toList with
  | none => .ok none
  | some entry =>
    let value := doc.entryBody entry
    if doc.role value = .object then .ok (some value)
    else .error (.mismatch (.containerKind container.key (doc.node value).kind))

/-- The entries of a container with a name, of which there has to be one. -/
def namedEntries (doc : Document) (model : Model) (container : Container) (name : List Char) :
    Except Failure (List NodeId) := do
  let entries := match ← model.containerObject? doc container with
    | some object => doc.entriesNamed object name
    | none => []
  if entries.isEmpty then throw (.entryNotFound model.space container.label name)
  return entries

/-- A new pair with a key of some name. -/
def writePair (name : List Char) (quote : Char) (value : NodeId) : Edit NodeId := do
  let kind := if Literal.isBareName name then "property_identifier" else "string"
  let key ← Edit.make (·.writeLeaf kind (Literal.keyText name quote))
  Edit.make (·.writeNode "pair" [(some "key", key), (some "value", value)])

/-- Gives an entry another value. An entry that is no pair becomes one. -/
def setValue (entry : NodeId) (name : List Char) (quote : Char) (value : NodeId) : Edit Unit := do
  match ← Edit.look (·.pairValue? entry) with
  | some old => Edit.change (·.replace old value)
  | none =>
    let pair ← writePair name quote value
    Edit.change (·.replace entry pair)

/-- Gives some entries another value each. -/
def setValues (name : List Char) (quote : Char) : Snippet → List NodeId → Edit Snippet
  | snippet, [] => pure snippet
  | snippet, entry :: rest => do
    let (value, snippet) ← snippet.next
    setValue entry name quote value
    setValues name quote snippet rest

/-- Takes some entries out. -/
def removeAll : List NodeId → Edit Unit
  | [] => pure ()
  | entry :: rest => do
    Edit.change (·.remove entry)
    removeAll rest

/-! ## Edits of one model -/

/-- Gives a model another namespace, in the quotes it had. -/
def rename (model : Model) (space : List Char) : Edit Unit := do
  let entry ← Edit.orFail (.mismatch .namespaceLost) (← Edit.look (·.entryNamed? model.object namespaceName))
  let old ← Edit.orFail (.mismatch .namespaceNoPair) (← Edit.look (·.pairValue? entry))
  let quote ← Edit.look fun doc => Literal.quoteOf (doc.text old)
  let literal ← Edit.make (·.writeLeaf "string" (Literal.quoted space quote))
  Edit.change (·.replace old literal)

/-- Gives a model that has a state another one. -/
def setState (model : Model) (snippet : Snippet) : Edit Snippet := do
  match ← Edit.look (·.entryNamed? model.object stateName) with
  | none => pure snippet
  | some entry => do
    let (value, snippet) ← snippet.next
    setValue entry stateName '\'' value
    pure snippet

/-- The object literal of a container, made when the model has none. -/
def ensureContainer (model : Model) (container : Container) (quote : Char) : Edit NodeId := do
  match ← liftM (model.containerObject? (← get) container) with
  | some object => pure object
  | none => do
    let object ← Edit.make (·.writeNode "object" [])
    let pair ← writePair container.key.toList quote object
    Edit.change (·.append model.object pair)
    pure object

/-- Adds an entry at the end of a container. -/
def addEntry (model : Model) (container : Container) (name : List Char) (snippet : Snippet) : Edit Snippet := do
  let quote ← Edit.look model.quote
  let object ← model.ensureContainer container quote
  let (value, snippet) ← snippet.next
  let pair ← writePair name quote value
  Edit.change (·.append object pair)
  pure snippet

/-- Gives the entries of a container with a name another value. -/
def setEntry (model : Model) (container : Container) (name : List Char) (snippet : Snippet) : Edit Snippet := do
  let entries ← liftM (model.namedEntries (← get) container name)
  let quote ← Edit.look model.quote
  setValues name quote snippet entries

/-- Takes the entries with a name out of a container. -/
def removeEntry (model : Model) (container : Container) (name : List Char) : Edit Unit := do
  removeAll (← liftM (model.namedEntries (← get) container name))

end Model

/-! ## Edits of a set of models -/

/-- An edit of a set of models. -/
inductive ModelEdit
  | setNamespace (space : List Char)
  | setState (source : List Char)
  | addEntry (container : Container) (name : List Char) (source : Option (List Char))
  | setEntry (container : Container) (name source : List Char)
  | removeEntry (container : Container) (name : List Char)
  deriving DecidableEq, Repr

/-- A document and the models of a set in it. -/
structure ModelSet where
  doc : Document
  models : List Model

namespace ModelSet

/-- The models of a document. -/
def find (doc : Document) (filter : Option (List Char)) : Except Failure ModelSet := do
  return ⟨doc, ← doc.models filter⟩

/-- Renames models one after the other; the models renamed before a failure stay so. -/
def renameAll (space : List Char) : List Model → StateM Document (List Model × Except Failure Unit)
  | [] => pure ([], .ok ())
  | model :: rest => do
    match ← (model.rename space).run with
    | .error e => pure (model :: rest, .error e)
    | .ok () => do
      let (models, result) ← renameAll space rest
      pure ({ model with space } :: models, result)

/-- Runs an edit with a snippet on models one after the other. -/
def forAll (edit : Model → Snippet → Edit Snippet) : Snippet → List Model → Edit Unit
  | _, [] => pure ()
  | snippet, model :: rest => do
    let snippet ← edit model snippet
    forAll edit snippet rest

/-- Runs an edit without a snippet on models one after the other. -/
def forEach (edit : Model → Edit Unit) : List Model → Edit Unit
  | [] => pure ()
  | model :: rest => do
    edit model
    forEach edit rest

/-- The edits that leave the namespaces as they are. -/
def editEntries [Reader] (models : List Model) : ModelEdit → Edit Unit
  | .setNamespace _ => pure ()
  | .setState source => do forAll Model.setState (← Snippet.parse source) models
  | .addEntry container name source => do
    let snippet ← Snippet.parse (source.getD container.defaultSource.toList)
    forAll (fun model => model.addEntry container name) snippet models
  | .setEntry container name source => do
    forAll (fun model => model.setEntry container name) (← Snippet.parse source) models
  | .removeEntry container name => forEach (fun model => model.removeEntry container name) models

/-- The set after an edit, and whether the edit succeeded. -/
def apply [Reader] (set : ModelSet) (edit : ModelEdit) : ModelSet × Except Failure Unit :=
  match edit with
  | .setNamespace space =>
    let ((models, result), doc) := (renameAll space set.models).run set.doc
    (⟨doc, models⟩, result)
  | edit =>
    let (result, doc) := (editEntries set.models edit).run.run set.doc
    ({ set with doc }, result)

end ModelSet

end StoreModels
