import StoreModels.Storage.Basic

/-!
Files in directories. A path is followed name by name; every name but the last has to lead to a directory.
-/
namespace StoreModels

/-- What a name in a directory stands for. -/
inductive DiskEntry
  | directory
  | file (bytes : List UInt8)
  deriving DecidableEq, Repr

/-- All entries below the root, each under the names that lead to it, and the names of the directory where relative
    paths start. -/
structure Disk where
  entries : List (List String × DiskEntry)
  here : List String

namespace Disk

/-- The entry that names lead to. -/
def entryAt? (disk : Disk) (names : List String) : Option DiskEntry :=
  if names.isEmpty then some .directory else disk.entries.lookup names

/-- The disk with an entry under some names. -/
def put (disk : Disk) (names : List String) (entry : DiskEntry) : Disk :=
  if (disk.entryAt? names).isSome then
    { disk with entries := disk.entries.map fun (other, old) => if other = names then (names, entry) else (other, old) }
  else { disk with entries := disk.entries ++ [(names, entry)] }

/-- The disk without the entry under some names. -/
def drop (disk : Disk) (names : List String) : Disk :=
  { disk with entries := disk.entries.filter fun (other, _) => other ≠ names }

/-- Where one more name leads: one dot stays, two dots lead to the directory around. -/
def enter (names : List String) (name : String) : List String :=
  if name = "" ∨ name = "." then names else if name = ".." then names.dropLast else names ++ [name]

/-- Whether a name is longer than any entry's: names have at most 255 bytes. -/
def isTooLong (name : String) : Bool := 255 < name.utf8ByteSize

/-- Where names lead from a directory on. The last one need not exist. -/
def follow (disk : Disk) : List String → List String → Except StorageError (List String)
  | names, [] => .ok names
  | names, name :: rest =>
    match disk.entryAt? names with
    | none => .error .notFound
    | some (.file _) => .error .notDirectory
    | some .directory => if isTooLong name then .error .invalidName else disk.follow (enter names name) rest

/-- Where a path starts. -/
def origin (disk : Disk) (path : Path) : List String := if path.isAbsolute then [] else disk.here

/-- The pieces of a path between its slashes. -/
def pieces (path : Path) : List String := (path.text.toList.splitOn '/').map String.ofList

/-- Whether a text can be used as a path at all: it holds no null character and less than 4096 bytes. -/
def checkText (text : String) : Except StorageError Unit :=
  if text.toList.contains '\x00' then .error .invalidPath
  else if 4096 ≤ text.utf8ByteSize then .error .invalidName
  else if text.isEmpty then .error .notFound
  else .ok ()

/-- Where a path leads. -/
def resolve (disk : Disk) (path : Path) : Except StorageError (List String) := do
  checkText path.text
  disk.follow (disk.origin path) (pieces path)

/-- The entry that a path leads to. -/
def find (disk : Disk) (path : Path) : Except StorageError DiskEntry := do
  match disk.entryAt? (← disk.resolve path) with
  | some entry => .ok entry
  | none => .error .notFound

/-- The text of some bytes. -/
def decode? (bytes : List UInt8) : Option (List Char) :=
  (String.fromUTF8? ⟨bytes.toArray⟩).map String.toList

/-- The bytes of a text. -/
def encode (text : List Char) : List UInt8 := (String.ofList text).toUTF8.data.toList

/-- The text of a file. -/
def read (disk : Disk) (path : Path) : Except StorageError (List Char) := do
  match ← disk.find path with
  | .directory => .error .isDirectory
  | .file bytes => match decode? bytes with
    | some text => .ok text
    | none => .error .invalidData

/-- Takes a file away. -/
def remove (disk : Disk) (path : Path) : Except StorageError Disk := do
  match ← disk.find path with
  | .directory => .error .isDirectory
  | .file _ => return disk.drop (← disk.resolve path)

/-- Makes the directories that names lead through from a directory on. What has been made stays also when a file is in
    the way. -/
def makeDirectories (disk : Disk) : List String → List String → Disk × Except StorageError (List String)
  | names, [] => (disk, .ok names)
  | names, name :: rest =>
    let next := enter names name
    if isTooLong name then (disk, .error .invalidName)
    else match disk.entryAt? next with
      | some .directory => disk.makeDirectories next rest
      | none => (disk.put next .directory).makeDirectories next rest
      | some (.file _) => (disk, .error (if rest.isEmpty then .alreadyExists else .notDirectory))

/-- Where a path puts a file: the names of the directory around it, which has to be there, and the name of the file. A
    path that ends with dots or that is the root names no file; one that ends with a slash names a directory. -/
def target (disk : Disk) (path : Path) : Except StorageError (List String) := do
  checkText path.text
  let names := (pieces path).filter (· ≠ "")
  let around ← disk.follow (disk.origin path) (names.dropLast ++ ["."])
  match names.getLast? with
  | none => .error .busy
  | some last =>
    if last = "." ∨ last = ".." then .error .busy
    else if isTooLong last then .error .invalidName
    else if path.text.toList.getLast? = some '/' then .error .notDirectory
    else .ok (enter around last)

/-- Makes a file with a text, and the directories on the way to it. -/
def write (disk : Disk) (path : Path) (text : List Char) : Disk × Except StorageError Unit :=
  let around := "/".intercalate path.names.dropLast
  match if around.isEmpty then .ok () else checkText around with
  | .error e => (disk, .error e)
  | .ok () =>
    match disk.makeDirectories (disk.origin path) path.names.dropLast with
    | (disk, .error e) => (disk, .error e)
    | (disk, .ok _) =>
      match disk.target path with
      | .error e => (disk, .error e)
      | .ok names => match disk.entryAt? names with
        | some .directory => (disk, .error .isDirectory)
        | _ => (disk.put names (.file (encode text)), .ok ())

instance : Files (StateM Disk) where
  read path := do pure ((← get).read path)
  has path := do pure ((← get).find path).isOk
  write path text := modifyGet fun disk =>
    let (disk, result) := disk.write path text
    (result, disk)
  remove path := do
    match (← get).remove path with
    | .ok disk => do set disk; pure (.ok ())
    | .error e => pure (.error e)

end Disk

end StoreModels
