/-!
Paths as texts with slashes. Nothing is normalized: two paths are the same when their texts are.
-/
namespace StoreModels

/-- A path. -/
structure Path where
  text : String
  deriving DecidableEq, Repr

namespace Path

/-- The names of a path; empty names and the name of one dot stand for no step. -/
def names (path : Path) : List String :=
  (path.text.toList.splitOn '/').map String.ofList |>.filter fun name => name ≠ "" ∧ name ≠ "."

/-- The name of the file or directory that a path leads to. -/
def fileName? (path : Path) : Option String := path.names.getLast?.filter (· ≠ "..")

/-- What follows the last dot of a file's name; a dot that starts the name does not count. -/
def extension? (path : Path) : Option String :=
  path.fileName?.bind fun name =>
    let chars := name.toList
    let after := (chars.reverse.takeWhile (· ≠ '.')).reverse
    if after.length + 1 < chars.length then some (String.ofList after) else none

/-- Whether a path starts at the root. -/
def isAbsolute (path : Path) : Bool := path.text.toList.head? = some '/'

/-- A path taken from another one: an absolute path stands for itself, otherwise one slash parts the two. -/
def join (base path : Path) : Path :=
  if path.isAbsolute then path
  else if base.text.isEmpty ∨ base.text.toList.getLast? = some '/' then ⟨base.text ++ path.text⟩
  else ⟨base.text ++ "/" ++ path.text⟩

end Path

end StoreModels
