import StoreModels.Path

/-!
Where files are kept. The service does not know more of it than the four calls of `Files`.
-/
namespace StoreModels

/-- Why a file could not be read, written or removed. -/
inductive StorageError
  | notFound
  | isDirectory
  | notDirectory
  | alreadyExists
  | invalidData
  | invalidName
  | invalidPath
  | busy
  | other
  deriving DecidableEq, Repr

/-- A place for files, as effects of a monad. -/
class Files (m : Type → Type) where
  /-- The text of a file. -/
  read : Path → m (Except StorageError (List Char))
  /-- Whether a path leads to anything. -/
  has : Path → m Bool
  /-- Makes a file with a text, in place of the file that was there. -/
  write : Path → List Char → m (Except StorageError Unit)
  /-- Takes a file away. -/
  remove : Path → m (Except StorageError Unit)

end StoreModels
