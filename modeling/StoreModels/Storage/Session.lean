import StoreModels.Storage.Basic

/-!
Files as a map from paths to texts, with a record of the calls made. Two paths are the same file only if they are the
same text.
-/
namespace StoreModels

/-- A map from paths to texts. -/
abbrev FileMap := List (Path × List Char)

namespace FileMap

/-- The text at a path. -/
def get? (files : FileMap) (path : Path) : Option (List Char) := files.lookup path

/-- The map with a text at a path. -/
def put (path : Path) (text : List Char) : FileMap → FileMap
  | [] => [(path, text)]
  | (other, old) :: rest => if other = path then (path, text) :: rest else (other, old) :: put path text rest

/-- The map with nothing at a path. -/
def drop (files : FileMap) (path : Path) : FileMap := files.filter fun (other, _) => other ≠ path

end FileMap

/-- A call. -/
inductive Call
  | read (path : Path)
  | has (path : Path)
  | write (path : Path)
  | remove (path : Path)
  deriving DecidableEq, Repr

namespace Call

/-- Whether a call is meant to change files. -/
def isChange : Call → Bool
  | write _ | remove _ => true
  | read _ | has _ => false

/-- How a call is reported. -/
def text : Call → String
  | read path => "read " ++ path.text
  | has path => "exists " ++ path.text
  | write path => "write " ++ path.text
  | remove path => "remove " ++ path.text

end Call

/-- Files and the calls made so far, in their order. -/
structure Session where
  files : FileMap
  calls : List Call := []

namespace Session

/-- A session with one more call. -/
def record (call : Call) : StateM Session Unit := modify fun s => { s with calls := s.calls ++ [call] }

instance : Files (StateM Session) where
  read path := do
    record (.read path)
    match (← get).files.get? path with
    | some text => pure (.ok text)
    | none => pure (.error .notFound)
  has path := do
    record (.has path)
    pure ((← get).files.get? path).isSome
  write path text := do
    record (.write path)
    modify fun s => { s with files := s.files.put path text }
    pure (.ok ())
  remove path := do
    record (.remove path)
    match (← get).files.get? path with
    | some _ => do
      modify fun s => { s with files := s.files.drop path }
      pure (.ok ())
    | none => pure (.error .notFound)

end Session

end StoreModels
