import StoreModels.Model.Match
import StoreModels.Request.Operation
import StoreModels.Request.Payload
import StoreModels.Settings.Basic
import StoreModels.Storage.Basic
import StoreModels.Record.Extract
import StoreModels.Json.Value

/-!
Requests carried out on files. A request is checked before any file is touched; an update reads the file, edits its
models, and writes the new text only if it differs and can be read again. What went wrong is told in a message, and what
was done in a data exchange text.
-/
namespace StoreModels
open Syntax (Dialect Reader)

/-- Why a request was not carried out. -/
inductive Fault
  | unknownOperation (name : List Char)
  | missingFields (op : Operation) (fields : List Field)
  | invalidPayload (operation : List Char)
  | fileExists (path : Path)
  | scaffold (e : Scaffold.Error)
  | storage (e : StorageError)
  | settings (e : SettingsError)
  | failure (f : Failure)
  deriving DecidableEq, Repr

namespace Fault

/-- Names in a sentence: commas between, and before the last one the word "and". -/
def listed : List String → String
  | [] => ""
  | [name] => name
  | [name, last] => name ++ " and " ++ last
  | name :: rest => name ++ ", " ++ listed rest

/-- The message of a fault. -/
def message : Fault → String
  | unknownOperation name => String.ofList name ++ ": unknown model operation"
  | missingFields op fields => "api/models/" ++ op.name ++ ": payload should have " ++ listed (fields.map Field.key)
  | invalidPayload operation => String.ofList operation ++ ": invalid payload"
  | fileExists path => "File already exists: " ++ path.text
  | scaffold e => e.message
  | storage _ => "IO error"
  | settings e => "Configuration error: " ++ e.message
  | failure f => f.message

end Fault

/-! ## Steps and outcomes -/

/-- What a request did. -/
inductive Outcome
  | created (path : Path)
  | removed (path : Path)
  | updated (path : Path) (changed : Bool)
  | records (rs : List ModelRecord)

/-- A step of a request. -/
abbrev Job (m : Type → Type) := ExceptT Fault m

namespace Job
variable {m : Type → Type} [Monad m]

/-- A call that may fail. -/
def call (effect : m (Except StorageError α)) : Job m α := do
  match ← (effect : m _) with
  | .ok a => pure a
  | .error e => throw (.storage e)

/-- A result of the library that may be a failure. -/
def orFail : Except Failure α → Job m α
  | .ok a => pure a
  | .error f => throw (.failure f)

end Job

namespace Operation

/-- The path that a payload asks an operation to work on, if all required fields are there. -/
def target (op : Operation) (payload : Payload) : Except Fault Path :=
  let missing := op.missing payload
  if missing.isEmpty then match payload.target? with
    | some path => .ok path
    | none => .error (.missingFields op [.filePath])
  else .error (.missingFields op missing)

/-- The operation with a name. -/
def ofName (name : List Char) : Except Fault Operation :=
  match ofName? name with
  | some op => .ok op
  | none => .error (.unknownOperation name)

end Operation

namespace Document
variable [Reader]

/-- The document of a file's text, in the dialect of its path. -/
def ofFile (settings : Settings) (path : Path) (text : List Char) : Except Failure Document :=
  match parse (Dialect.ofPath path) text with
  | .ok doc => .ok (doc.withFallbackIndent settings.fallbackIndent)
  | .error e => .error (.ofRead e)

/-- The text of a document after an edit of its models. -/
def edited (doc : Document) (filter : Option (List Char)) (edit : ModelEdit) : Except Failure (List Char) := do
  let (set, result) := (← ModelSet.find doc filter).apply edit
  result
  return set.doc.print

/-- A new text for a file, unless it could not be read again. -/
def accepted (op : Operation) (path : Path) (dialect : Dialect) (text : List Char) : Except Failure Unit :=
  match parse dialect text with
  | .ok _ => .ok ()
  | .error _ => .error (.mismatch (.unparsableResult op.fullName path.text))

end Document

namespace Service
variable [Reader] {m : Type → Type} [Monad m] [Files m]

/-- The document of a file. -/
def load (settings : Settings) (path : Path) : Job m Document := do
  let text ← Job.call (Files.read path)
  Job.orFail (Document.ofFile settings path text)

/-- Writes the file of a new model. -/
def create (settings : Settings) (payload : Payload) : Job m Outcome := do
  let path ← liftM (Operation.create.target payload)
  let isThere ← (Files.has path : m Bool)
  if isThere && !settings.allowOverwrite then throw (.fileExists path)
  match Scaffold.render Scaffold.modelName.toList payload with
  | .error e => throw (.scaffold e)
  | .ok text => do
    Job.call (Files.write path text)
    return .created path

/-- Removes a file. -/
def remove (payload : Payload) : Job m Outcome := do
  let path ← liftM (Operation.remove.target payload)
  Job.call (Files.remove path)
  return .removed path

/-- The records of the models of a file. -/
def info (settings : Settings) (payload : Payload) : Job m Outcome := do
  let path ← liftM (Operation.info.target payload)
  let doc ← load settings path
  return .records (← Job.orFail (doc.extract settings.callees payload.namespaceFilter))

/-- Edits the models of a file. -/
def update (settings : Settings) (op : Operation) (payload : Payload) (edit : ModelEdit) : Job m Outcome := do
  let path ← liftM (op.target payload)
  let doc ← load settings path
  let text ← Job.orFail (doc.edited payload.namespaceFilter edit)
  if text = doc.source then return .updated path false
  Job.orFail (Document.accepted op path doc.dialect text)
  Job.call (Files.write path text)
  return .updated path true

/-- Carries out an operation. -/
def execute (settings : Settings) (op : Operation) (payload : Payload) : Job m Outcome :=
  match op.edit? payload with
  | some edit => update settings op payload edit
  | none => match op with
    | .create => create settings payload
    | .remove => remove payload
    | _ => info settings payload

/-- Carries out the operation with a name. -/
def run (settings : Settings) (name : List Char) (payload : Payload) : Job m Outcome := do
  execute settings (← liftM (Operation.ofName name)) payload

end Service

/-! ## Outcomes as texts -/

namespace EntryRecord

/-- The text of an entry that dispatches nothing by itself. -/
def plainJson (entry : EntryRecord) : List Char :=
  Json.objectText [("name".toList, Json.stringText entry.name), ("source".toList, Json.stringText entry.source)]

/-- The text of an entry with the actions it dispatches. -/
def flowJson (entry : EntryRecord) : List Char :=
  Json.objectText [("name".toList, Json.stringText entry.name), ("source".toList, Json.stringText entry.source),
    ("dispatches".toList, Json.arrayText (entry.dispatches.map Json.stringText))]

end EntryRecord

/-- The text of a record. -/
def ModelRecord.json (record : ModelRecord) : List Char :=
  Json.objectText ([("namespace".toList, Json.stringText record.space)] ++
    (record.state.map fun value => ("state".toList, value.json)).toList ++
    [("reducers".toList, Json.arrayText (record.reducers.map EntryRecord.plainJson)),
      ("effects".toList, Json.arrayText (record.effects.map EntryRecord.flowJson)),
      ("subscriptions".toList, Json.arrayText (record.subscriptions.map EntryRecord.flowJson))])

/-- The text of an outcome: that it is one, and the records if it has some. -/
def Outcome.json (outcome : Outcome) : List Char :=
  Json.objectText ([("ok".toList, Json.boolText true)] ++
    match outcome with
    | .records rs => [("models".toList, Json.arrayText (rs.map ModelRecord.json))]
    | _ => [])

end StoreModels
