import StoreModels.Document.Parse
import StoreModels.Model.Key
import StoreModels.Model.Property

/-!
Finding the models of a document: the object literals that have a namespace and one more property of a model, both under
bare names. Before that, what can go wrong when models are read or edited.
-/
namespace StoreModels

/-- Why models could not be read or edited. -/
inductive Failure
  | syntaxError (inSnippet : Bool)
  | mismatch (m : Mismatch)
  | unrecognizedProperty (model name : List Char)
  | entryNotFound (model : List Char) (label : String) (name : List Char)
  deriving DecidableEq, Repr

namespace Failure

def ofRead : ReadError → Failure
  | .syntaxError inSnippet => .syntaxError inSnippet
  | .mismatch m => .mismatch m

/-- The message of a failure. Of syntax errors only the fact is told. -/
def message : Failure → String
  | .syntaxError _ => "Parse error"
  | .mismatch m => m.message
  | .unrecognizedProperty model name =>
    "Unrecognized property '" ++ String.ofList name ++ "' in model '" ++ String.ofList model ++ "'"
  | .entryNotFound model label name =>
    "No " ++ label ++ " entry named '" ++ String.ofList name ++ "' in model '" ++ String.ofList model ++ "'"

end Failure

/-! ## Models -/

/-- An object literal taken for a model, and the namespace it is believed to have. -/
structure Model where
  object : NodeId
  space : List Char
  deriving DecidableEq, Repr

namespace Document

/-- The property of a model that an entry defines. -/
def entryProperty? (doc : Document) (entry : NodeId) : Option Property :=
  (doc.entryIdentifier? entry).bind fun name => Property.ofName? (String.ofList name)

/-- The text of a namespace entry, which has to be a string literal. -/
def namespaceText (doc : Document) (entry : NodeId) : Except Failure (List Char) :=
  let value := doc.entryBody entry
  if doc.role value = .stringLiteral then .ok (Literal.unquoted (doc.text value))
  else .error (.mismatch (.namespaceKind (doc.node value).kind))

/-- The last namespace among some entries, and whether another property of a model is among them. -/
def recognizeEntries (doc : Document) : Option (List Char) → Bool → List NodeId →
    Except Failure (Option (List Char) × Bool)
  | space, shaped, [] => .ok (space, shaped)
  | space, shaped, entry :: rest =>
    match doc.entryProperty? entry with
    | none => doc.recognizeEntries space shaped rest
    | some .nameSpace => do
      let text ← doc.namespaceText entry
      doc.recognizeEntries (some text) shaped rest
    | some property => doc.recognizeEntries space (shaped || property.makesModel) rest

/-- The model that an object literal is, if its namespace is not empty and is the one asked for. -/
def recognize (doc : Document) (filter : Option (List Char)) (object : NodeId) : Except Failure (Option Model) := do
  let (space, shaped) ← doc.recognizeEntries none false (doc.entries object)
  match space with
  | none => return none
  | some space =>
    if space.isEmpty || !shaped || filter.any (· != space) then return none
    else return some ⟨object, space⟩

/-- The object literals of the current tree, each before those inside it. -/
def objects (doc : Document) : List NodeId := (doc.descendants doc.root).filter fun id => doc.role id = .object

/-- The models among some object literals. -/
def recognizeAll (doc : Document) (filter : Option (List Char)) : List NodeId → Except Failure (List Model)
  | [] => .ok []
  | object :: rest => do
    let model ← doc.recognize filter object
    let models ← doc.recognizeAll filter rest
    return model.toList ++ models

/-- The models of a document in the order of the text, all or those of one namespace. -/
def models (doc : Document) (filter : Option (List Char)) : Except Failure (List Model) :=
  doc.recognizeAll filter doc.objects

end Document

end StoreModels
