import StoreModels.Json.Read
import StoreModels.Path
import StoreModels.Literal.Quoted

/-!
Payloads: what a request says besides the name of its operation; and the texts of new files, which are made from them.
-/
namespace StoreModels

/-- The fields of a payload. -/
inductive Field
  | nameSpace
  | newNamespace
  | name
  | source
  | sourcePath
  | filePath
  deriving DecidableEq, Repr

namespace Field

/-- All fields in their order. -/
def all : List Field := [Field.nameSpace, newNamespace, name, source, sourcePath, filePath]

/-- The key of a field. -/
def key : Field → String
  | Field.nameSpace => "namespace"
  | newNamespace => "newNamespace"
  | Field.name => "name"
  | source => "source"
  | sourcePath => "sourcePath"
  | filePath => "filePath"

/-- The field with a key. -/
def ofKey? (key : List Char) : Option Field := all.find? fun field => field.key.toList == key

end Field

/-- A payload: texts for some of the fields. -/
structure Payload where
  value : Field → Option (List Char)

namespace Payload

/-- The payload without any text. -/
def empty : Payload := ⟨fun _ => none⟩

/-- The payload with another text in a field. -/
def set (payload : Payload) (field : Field) (text : Option (List Char)) : Payload :=
  ⟨fun other => if other = field then text else payload.value other⟩

/-- The text of a field, unless it is empty. -/
def filled? (payload : Payload) (field : Field) : Option (List Char) :=
  (payload.value field).filter fun text => !text.isEmpty

/-- The text of a field; an empty one where there is none. -/
def text (payload : Payload) (field : Field) : List Char := (payload.value field).getD []

/-- The path of the file that a request is about: the file path, taken from the source path. -/
def target? (payload : Payload) : Option Path :=
  (payload.filled? .filePath).map fun file =>
    match payload.filled? .sourcePath with
    | some root => Path.join ⟨String.ofList root⟩ ⟨String.ofList file⟩
    | none => ⟨String.ofList file⟩

/-- The namespace that models have to have; an empty one stands for any. -/
def namespaceFilter (payload : Payload) : Option (List Char) := payload.filled? .nameSpace

/-! ## Reading -/

/-- The payload of the members of an object from here on, given the fields read so far. Members with unknown keys are
    skipped; a known key may occur once. -/
def readMembers? : Nat → List Field → Payload → List Char → Option (Payload × List Char)
  | 0, _, _, _ => none
  | fuel + 1, known, payload, text => do
    let (key, rest) ← Json.string? text
    let rest ← Json.mark? ':' rest
    let (known, payload, rest) ← match Field.ofKey? key with
      | none => do some (known, payload, ← Json.skip? rest.length rest)
      | some field => do
        if known.contains field then none
        let (value, rest) ← Json.nullableString? rest
        some (field :: known, payload.set field value, rest)
    match Json.skipBlanks rest with
    | '}' :: rest => some (payload, rest)
    | ',' :: rest => readMembers? fuel known payload (Json.skipBlanks rest)
    | _ => none

/-- The payload of the items of an array from here on: texts for the given fields in order. -/
def readItems? : List Field → Payload → List Char → Option (Payload × List Char)
  | [], _, _ => none
  | field :: fields, payload, text => do
    let (value, rest) ← Json.nullableString? text
    let payload := payload.set field value
    match Json.skipBlanks rest with
    | ']' :: rest => some (payload, rest)
    | ',' :: rest => readItems? fields payload (Json.skipBlanks rest)
    | _ => none

/-- The payload at the start of a text: an object, or an array of the fields in their order. -/
def readStart? (text : List Char) : Option (Payload × List Char) :=
  match text with
  | '{' :: rest => match Json.skipBlanks rest with
    | '}' :: rest => some (empty, rest)
    | members => readMembers? text.length [] empty members
  | '[' :: rest => match Json.skipBlanks rest with
    | ']' :: rest => some (empty, rest)
    | items => readItems? Field.all empty items
  | _ => none

/-- The payload of a text. -/
def read? (text : List Char) : Option Payload := do
  let (payload, rest) ← readStart? (Json.skipBlanks text)
  if (Json.skipBlanks rest).isEmpty then some payload else none

end Payload

end StoreModels

/-! ## Texts of new files -/

namespace StoreModels.Scaffold

/-- Why no text could be made. -/
inductive Error
  | noNamespace
  | unknown (name : List Char)
  deriving DecidableEq, Repr

/-- The message of an error. -/
def Error.message : Error → String
  | noNamespace => "Template error: models.create needs a namespace"
  | unknown name => "Template error: unknown template '" ++ String.ofList name ++ "'"

/-- The file of a model that has only a namespace, with an empty state and empty containers. -/
def modelText (space : List Char) : List Char :=
  "export default \x7b\n  namespace: ".toList ++ Literal.quoted space '\'' ++
    ",\n  state: \x7b\x7d,\n  reducers: \x7b\x7d,\n  effects: \x7b\x7d,\n  subscriptions: \x7b\x7d,\n\x7d;\n".toList

/-- The name of the only text there is. -/
def modelName : String := "models.create"

/-- The text with a name. -/
def render (name : List Char) (payload : Payload) : Except Error (List Char) :=
  if name = modelName.toList then match payload.value .nameSpace with
    | some space => .ok (modelText space)
    | none => .error .noNamespace
  else .error (.unknown name)

end StoreModels.Scaffold
