import StoreModels.Model.Edit
import StoreModels.Request.Payload

/-!
The operations on model files and what each of them needs.
-/
namespace StoreModels

/-- What can be done with a model file. -/
inductive Operation
  | create
  | remove
  | updateNamespace
  | updateState
  | addEntry (container : Container)
  | updateEntry (container : Container)
  | removeEntry (container : Container)
  | info
  deriving DecidableEq, Repr

namespace Operation

/-- All operations. -/
def all : List Operation :=
  [create, remove, updateNamespace, updateState] ++
    Container.all.flatMap (fun c => [addEntry c, updateEntry c, removeEntry c]) ++ [info]

/-- What an entry of a container is called in the names of operations. -/
def entryName : Container → String
  | .reducers => "Reducer"
  | .effects => "Effect"
  | .subscriptions => "Subscription"

/-- The name of an operation. -/
def name : Operation → String
  | create => "create"
  | remove => "remove"
  | updateNamespace => "updateNamespace"
  | updateState => "updateState"
  | addEntry c => "add" ++ entryName c
  | updateEntry c => "update" ++ entryName c
  | removeEntry c => "remove" ++ entryName c
  | info => "info"

/-- The name with the group that the operations belong to. -/
def fullName (op : Operation) : String := "models." ++ op.name

/-- A name without the group in front. -/
def bareName (name : List Char) : List Char :=
  if "models.".toList.isPrefixOf name then name.drop 7 else name

/-- The operation with a name, the group in front of it or not. -/
def ofName? (name : List Char) : Option Operation := all.find? fun op => op.name.toList == bareName name

/-- The fields that have to have a text. -/
def required : Operation → List Field
  | create => [.nameSpace, .sourcePath, .filePath]
  | remove | info => [.sourcePath, .filePath]
  | updateNamespace => [.nameSpace, .newNamespace, .sourcePath, .filePath]
  | updateState => [.nameSpace, .source, .sourcePath, .filePath]
  | addEntry _ | updateEntry _ => [.nameSpace, .name, .source, .sourcePath, .filePath]
  | removeEntry _ => [.nameSpace, .name, .sourcePath, .filePath]

/-- The required fields that a payload leaves empty. -/
def missing (op : Operation) (payload : Payload) : List Field :=
  op.required.filter fun field => (payload.filled? field).isNone

/-- The edit of models that an operation with a payload stands for. -/
def edit? (op : Operation) (payload : Payload) : Option ModelEdit :=
  match op with
  | updateNamespace => some (.setNamespace (payload.text .newNamespace))
  | updateState => some (.setState (payload.text .source))
  | addEntry c => some (.addEntry c (payload.text .name) (some (payload.text .source)))
  | updateEntry c => some (.setEntry c (payload.text .name) (payload.text .source))
  | removeEntry c => some (.removeEntry c (payload.text .name))
  | create | remove | info => none

end Operation

end StoreModels
